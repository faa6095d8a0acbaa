import QueensPuzzle.Json.Lexis
import QueensPuzzle.Json.Value

/-! # Numbers and strings read back

A number is read back where no further part of a number stands behind it, and a string is read back
wherever it stands: its closing quote tells its end. Most characters are written as they are. Of the
escaped ones some are read as letters behind a backslash and the others as units, and no unit that is
written is one of a pair, so each makes its character alone.
-/

namespace QueensPuzzle.Json

variable {c d : Char} {rest : List Char}

/-! ## Blanks and signs -/

theorem skipBlanks_cons (h : isBlank c = false) : skipBlanks (c :: rest) = c :: rest := by
  rw [skipBlanks, List.dropWhile_cons_of_neg (by simp [h])]

theorem expect_cons (h : isBlank c = false) : expect c (c :: rest) = some rest := by
  simp [expect, skipBlanks_cons h]

theorem expect_cons_of_ne (h : isBlank c = false) (hne : c ≠ d) : expect d (c :: rest) = none := by
  simp [expect, skipBlanks_cons h, hne]

/-! ## Numbers -/

/-- No further part of a number is in front. -/
def Ends (rest : List Char) : Prop :=
  ∀ c ∈ rest.head?, c.isDigit = false ∧ c ≠ '.' ∧ c ≠ 'e' ∧ c ≠ 'E'

theorem ends_nil : Ends [] := by simp [Ends]

theorem ends_cons (hdigit : c.isDigit = false) (hmore : c ≠ '.' ∧ c ≠ 'e' ∧ c ≠ 'E') :
    Ends (c :: rest) := by
  simpa [Ends] using ⟨hdigit, hmore⟩

theorem digitsValue_toDigits (n : Nat) : digitsValue (Nat.toDigits 10 n) = n :=
  Nat.ofDigitChars_ten_toDigits

theorem exists_toDigits_eq (n : Nat) :
    ∃ first more, Nat.toDigits 10 n = first :: more ∧ first.isDigit = true := by
  have hsome : Nat.toDigits 10 n ≠ [] := Nat.toDigits_ne_nil
  obtain ⟨first, more, hdigits⟩ := List.exists_cons_of_ne_nil hsome
  refine ⟨first, more, hdigits, ?_⟩
  apply Nat.isDigit_of_mem_toDigits (b := 10) (n := n) (by decide) (by decide)
  rw [hdigits]
  exact List.mem_cons_self

theorem toDigits_append_ne_minus (n : Nat) (rest after : List Char) :
    Nat.toDigits 10 n ++ rest ≠ '-' :: after := by
  obtain ⟨first, more, hdigits, hdigit⟩ := exists_toDigits_eq n
  rw [hdigits]
  rintro ⟨⟩
  cases hdigit

theorem eq_zero_of_head?_toDigits {n : Nat} (h : (Nat.toDigits 10 n).head? = some '0') : n = 0 := by
  induction n using Nat.strongRecOn with
  | ind n ih =>
      rcases Nat.lt_or_ge n 10 with hlt | hge
      · rw [Nat.toDigits_of_lt_base hlt] at h
        exact Nat.digitChar_eq_zero.mp (Option.some.inj h)
      · -- The first digit is the first of the number without its last digit.
        obtain ⟨first, more, hdigits, _⟩ := exists_toDigits_eq (n / 10)
        rw [Nat.toDigits_of_base_le (by decide) hge, hdigits] at h
        have hzero := ih (n / 10) (by omega) (by rw [hdigits]; exact h)
        omega

theorem takeWhile_toDigits {n : Nat} (h : Ends rest) :
    (Nat.toDigits 10 n ++ rest).takeWhile Char.isDigit = Nat.toDigits 10 n ∧
      (Nat.toDigits 10 n ++ rest).dropWhile Char.isDigit = rest := by
  have hdigits : ∀ c ∈ Nat.toDigits 10 n, c.isDigit = true :=
    fun c hc => Nat.isDigit_of_mem_toDigits (by decide) (by decide) hc
  rw [List.takeWhile_append_of_pos hdigits, List.dropWhile_append_of_pos hdigits]
  cases rest with
  | nil => simp
  | cons c rest =>
      have hc := (h c rfl).1
      simp [hc]

theorem scanDigits_toDigits {n : Nat} (h : Ends rest) :
    scanDigits (Nat.toDigits 10 n ++ rest) = some (Nat.toDigits 10 n, rest) := by
  obtain ⟨htake, hdrop⟩ := takeWhile_toDigits (n := n) h
  rw [scanDigits, htake, hdrop]
  split
  · rename_i hnil
    exact absurd hnil Nat.toDigits_ne_nil
  · rename_i hzero
    obtain rfl := eq_zero_of_head?_toDigits (n := n) (by rw [hzero]; rfl)
    rw [Nat.toDigits_zero] at hzero
    cases hzero
  · rfl

/-- A whole number is read back, whether it has a sign or not. -/
theorem scanInt_intChars (n : Int) (h : Ends rest) :
    scanInt (intChars n ++ rest) = some (n, rest) := by
  have hmore : (rest.head?.any fun c => c == '.' || c == 'e' || c == 'E') = false := by
    cases rest with
    | nil => rfl
    | cons c rest => simpa [and_assoc] using (h c rfl).2
  cases n with
  | ofNat n =>
      rw [intChars, scanInt, scanDigits_toDigits h]
      · simp [hmore, digitsValue_toDigits]
      · intro after hminus
        exact toDigits_append_ne_minus n rest after hminus
  | negSucc n =>
      rw [intChars, List.cons_append, scanInt, scanDigits_toDigits h]
      simp only [hmore, digitsValue_toDigits, Bool.not_true, Bool.false_eq_true, if_false,
        beq_iff_eq, Nat.succ_ne_zero]
      rfl

/-! ## Strings -/

/-- The piece makes the character, whatever is behind it. -/
def Piece.Makes (piece : Piece) (c : Char) : Prop :=
  ∀ pieces, assemble (piece :: pieces) = (assemble pieces).map (c :: ·)

theorem makes_plain (c : Char) : (Piece.plain c).Makes c := fun _ => by rw [assemble]

/-- A unit that is none of a pair makes its character alone. -/
theorem makes_unit {code : Nat} (h : code < 0xD800) :
    (Piece.unit code).Makes (Char.ofNat code) := by
  have hleading : isLeading code = false := by
    rw [isLeading, Bool.and_eq_false_iff, decide_eq_false_iff_not]
    exact .inl (by omega)
  have htrailing : isTrailing code = false := by
    rw [isTrailing, Bool.and_eq_false_iff, decide_eq_false_iff_not]
    exact .inl (by omega)
  intro pieces
  cases pieces with
  | nil => simp [assemble, hleading, htrailing]
  | cons piece pieces => cases piece <;> simp [assemble, hleading, htrailing]

theorem hexUnit_digitChar {n : Nat} (h : n < 32) :
    hexUnit '0' '0' (Nat.digitChar (n / 16)) (Nat.digitChar (n % 16)) = some n := by
  revert n
  decide

section

variable (before : List Piece)

theorem scanPieces_backslash {letter : Char} (h : unescaped letter = some c) :
    scanPieces before ('\\' :: letter :: rest) = scanPieces (.plain c :: before) rest := by
  rw [scanPieces, h]
  rintro _ _ _ _ _ rfl _
  cases h

theorem scanPieces_plain (hquote : c ≠ '"') (hbackslash : c ≠ '\\') (hcode : 32 ≤ c.toNat) :
    scanPieces before (c :: rest) = scanPieces (.plain c :: before) rest := by
  rw [scanPieces, if_neg (Nat.not_lt.mpr hcode)]
  · exact hquote
  · intro _ _ _ _ _ hc _
    exact hbackslash hc
  · intro _ _ hc _
    exact hbackslash hc

theorem scanPieces_unit {code : Nat} (h : code < 32) :
    scanPieces before ('\\' :: 'u' :: '0' :: '0' :: Nat.digitChar (code / 16) ::
      Nat.digitChar (code % 16) :: rest) = scanPieces (.unit code :: before) rest := by
  rw [scanPieces, hexUnit_digitChar h]

end

/-- A character is written so that it is read as one piece. -/
theorem scanPieces_escaped (c : Char) :
    ∃ piece : Piece, piece.Makes c ∧
      ∀ before rest, scanPieces before (escaped c ++ rest) = scanPieces (piece :: before) rest := by
  unfold escaped
  split
  · rename_i hsign
    have hletter : unescaped c = some c := by
      rw [unescaped, if_pos (by rw [hsign, Bool.true_or])]
    exact ⟨_, makes_plain c, fun before _ => scanPieces_backslash before hletter⟩
  rename_i hplain
  -- Five control characters have a letter of their own.
  iterate 5
    split
    · rename_i hshort
      obtain rfl := eq_of_beq hshort
      exact ⟨_, makes_plain _, fun before _ => scanPieces_backslash before rfl⟩
  split
  · rename_i hcontrol
    have hmakes := makes_unit (show c.toNat < 0xD800 by omega)
    rw [Char.ofNat_toNat] at hmakes
    exact ⟨_, hmakes, fun before _ => scanPieces_unit before hcontrol⟩
  · rename_i hcode
    obtain ⟨hquote, hbackslash⟩ : c ≠ '"' ∧ c ≠ '\\' := by simpa using hplain
    exact ⟨_, makes_plain c,
      fun before _ => scanPieces_plain before hquote hbackslash (Nat.le_of_not_lt hcode)⟩

theorem scanPieces_flatMap_escaped (chars : List Char) (before : List Piece) (rest : List Char) :
    ∃ pieces, scanPieces before (chars.flatMap escaped ++ '"' :: rest) =
        some (before.reverse ++ pieces, rest) ∧ assemble pieces = some chars := by
  induction chars generalizing before with
  | nil =>
      refine ⟨[], ?_, by rw [assemble]⟩
      rw [List.flatMap_nil, List.nil_append, scanPieces, List.append_nil]
  | cons c chars ih =>
      obtain ⟨piece, hmakes, hpiece⟩ := scanPieces_escaped c
      obtain ⟨pieces, hpieces, hchars⟩ := ih (piece :: before)
      refine ⟨piece :: pieces, ?_, ?_⟩
      · rw [List.flatMap_cons, List.append_assoc, hpiece, hpieces, List.reverse_cons,
          List.append_assoc]
        rfl
      · rw [hmakes, hchars]
        rfl

/-- Every string is read back, whatever characters are in it. -/
theorem scanString_stringChars (text : String) (rest : List Char) :
    scanString (stringChars text ++ rest) = some (text, rest) := by
  obtain ⟨pieces, hpieces, hchars⟩ := scanPieces_flatMap_escaped text.toList [] rest
  have hquote : expect '"' (stringChars text ++ rest) =
      some (text.toList.flatMap escaped ++ '"' :: rest) := by
    rw [stringChars, List.cons_append, expect_cons (by decide), List.append_assoc]
    rfl
  rw [scanString, hquote]
  simp [hpieces, hchars]

end QueensPuzzle.Json
