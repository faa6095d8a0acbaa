import Mathlib.Data.Nat.Digits.Defs
import Mathlib.Tactic.Ring
import QueensPuzzle.CommandLine.Options

/-! # Numbers on the command line

A numeral is an optional plus sign with decimal digits behind it, as many as one likes. The words
that are read as numbers are the numerals of numbers below the limit. Digits are taken in one by
one, and the number that they make never falls, so a check at each digit finds every number that
is too large, however many zeros are in front. The sizes of boards are the numerals from 1 to 24.
-/

namespace QueensPuzzle

namespace Text

/-- The text has at most one plus sign and then the digits of the number, at least one, with or
without zeros in front. -/
def Spells (text : String) (n : Nat) : Prop :=
  ∃ (sign : List Char) (digits : List Nat), (sign = [] ∨ sign = ['+']) ∧ digits ≠ [] ∧
    (∀ digit ∈ digits, digit < 10) ∧ text.toList = sign ++ digits.map Nat.digitChar ∧
    Nat.ofDigits 10 digits.reverse = n

variable {text : String} {limit n value : Nat} {digits : List Nat} {chars : List Char}

/-! ## Digits -/

theorem isDigit_of_mem_map_digitChar (hdigits : ∀ digit ∈ digits, digit < 10) :
    ∀ c ∈ digits.map Nat.digitChar, c.isDigit = true := by
  intro c hc
  obtain ⟨digit, hdigit, rfl⟩ := List.mem_map.mp hc
  simp [Nat.isDigit_digitChar, hdigits digit hdigit]

/-- Nothing but digits and plus signs is in a numeral. -/
theorem Spells.isDigit_or_eq_plus (h : Spells text n) {c : Char} (hc : c ∈ text.toList) :
    c.isDigit = true ∨ c = '+' := by
  obtain ⟨sign, digits, hsign, _, hdigits, htext, _⟩ := h
  rw [htext] at hc
  rcases List.mem_append.mp hc with hc | hc
  · rcases hsign with rfl | rfl
    · cases hc
    · exact .inr (List.mem_singleton.mp hc)
  · exact .inl (isDigit_of_mem_map_digitChar hdigits c hc)

theorem digitChar_of_isDigit {c : Char} (h : c.isDigit = true) :
    ∃ digit < 10, c = Nat.digitChar digit := by
  obtain ⟨hlow, hhigh⟩ := Char.isDigit_iff_toNat.mp h
  change 48 ≤ c.toNat at hlow
  change c.toNat ≤ 57 at hhigh
  have hdigit : c.toNat - 48 < 10 := by omega
  refine ⟨c.toNat - 48, hdigit, Char.toNat_inj.mp ?_⟩
  rw [Nat.toNat_digitChar_of_lt_ten hdigit]
  omega

theorem readDigits_cons {digit : Nat} (h : digit < 10) (limit n : Nat) (rest : List Char) :
    readDigits limit n (digit.digitChar :: rest) =
      if 10 * n + digit < limit then readDigits limit (10 * n + digit) rest
      else .error .tooLarge := by
  have hdigit : digit.digitChar.isDigit = true := by simp [Nat.isDigit_digitChar, h]
  have hvalue : digit.digitChar.toNat - '0'.toNat = digit := by
    rw [Nat.toNat_digitChar_of_lt_ten h]
    exact Nat.add_sub_cancel_left 48 digit
  rw [readDigits, if_pos hdigit, hvalue]

/-- What the digits make is compared with the limit as a whole, although each digit is looked at
in turn: what they make so far is not more than what they make in the end. -/
theorem readDigits_map_digitChar (hdigits : ∀ digit ∈ digits, digit < 10) (hlimit : n < limit) :
    readDigits limit n (digits.map Nat.digitChar) =
      if n * 10 ^ digits.length + Nat.ofDigits 10 digits.reverse < limit then
        .ok (n * 10 ^ digits.length + Nat.ofDigits 10 digits.reverse)
      else .error .tooLarge := by
  induction digits generalizing n with
  | nil => simp [readDigits, hlimit]
  | cons digit digits ih =>
      obtain ⟨hdigit, hrest⟩ := List.forall_mem_cons.mp hdigits
      have hvalue : n * 10 ^ (digit :: digits).length +
          Nat.ofDigits 10 (digit :: digits).reverse =
            (10 * n + digit) * 10 ^ digits.length + Nat.ofDigits 10 digits.reverse := by
        rw [Nat.ofDigits_reverse_cons, List.length_cons]
        ring
      rw [List.map_cons, readDigits_cons hdigit, hvalue]
      by_cases hfits : 10 * n + digit < limit
      · rw [if_pos hfits, ih hrest hfits]
      · have hle : 10 * n + digit ≤ (10 * n + digit) * 10 ^ digits.length :=
          Nat.le_mul_of_pos_right _ (Nat.pow_pos (by decide))
        rw [if_neg hfits, if_neg (by omega)]

theorem exists_digits_of_readDigits (h : readDigits limit n chars = .ok value) :
    ∃ digits : List Nat, (∀ digit ∈ digits, digit < 10) ∧ chars = digits.map Nat.digitChar := by
  induction chars generalizing n with
  | nil => exact ⟨[], by simp, rfl⟩
  | cons c chars ih =>
      by_cases hc : c.isDigit = true
      · obtain ⟨digit, hdigit, rfl⟩ := digitChar_of_isDigit hc
        rw [readDigits_cons hdigit] at h
        split at h
        · obtain ⟨digits, hdigits, rfl⟩ := ih h
          exact ⟨digit :: digits, List.forall_mem_cons.mpr ⟨hdigit, hdigits⟩, rfl⟩
        · cases h
      · rw [readDigits, if_neg hc] at h
        cases h

/-! ## Numerals -/

/-- No digit is a plus sign, so the sign can be told from what is behind it. -/
theorem readUnsigned_of_toList_eq {sign : List Char} (hsign : sign = [] ∨ sign = ['+'])
    (hsome : digits ≠ []) (hdigits : ∀ digit ∈ digits, digit < 10)
    (htext : text.toList = sign ++ digits.map Nat.digitChar) (limit : Nat) :
    readUnsigned limit text = readDigits limit 0 (digits.map Nat.digitChar) := by
  obtain ⟨digit, digits, rfl⟩ := List.exists_cons_of_ne_nil hsome
  have hdigit := isDigit_of_mem_map_digitChar hdigits digit.digitChar List.mem_cons_self
  rw [readUnsigned, htext]
  rcases hsign with rfl | rfl
  · have hplus : digit.digitChar ≠ '+' := by
      intro hplus
      rw [hplus] at hdigit
      cases hdigit
    simp [hplus]
  · rfl

theorem exists_of_readUnsigned (h : readUnsigned limit text = .ok value) :
    ∃ sign chars, (sign = [] ∨ sign = ['+']) ∧ chars ≠ [] ∧ text.toList = sign ++ chars ∧
      readDigits limit 0 chars = .ok value := by
  unfold readUnsigned at h
  split at h
  · cases h
  · cases h
  · rename_i chars hsome htext
    exact ⟨['+'], chars, .inr rfl, hsome, htext, h⟩
  · rename_i hsome _ _
    exact ⟨[], text.toList, .inl rfl, hsome, rfl, h⟩

/-- A numeral is read as its number, or found to be too large. -/
theorem readUnsigned_of_spells (hlimit : 0 < limit) (h : Spells text n) :
    readUnsigned limit text = if n < limit then .ok n else .error .tooLarge := by
  obtain ⟨sign, digits, hsign, hsome, hdigits, htext, rfl⟩ := h
  rw [readUnsigned_of_toList_eq hsign hsome hdigits htext, readDigits_map_digitChar hdigits hlimit,
    Nat.zero_mul, Nat.zero_add]

/-- Nothing but numerals is read. -/
theorem spells_of_readUnsigned (hlimit : 0 < limit) (h : readUnsigned limit text = .ok n) :
    Spells text n := by
  obtain ⟨sign, chars, hsign, hsome, htext, hread⟩ := exists_of_readUnsigned h
  obtain ⟨digits, hdigits, rfl⟩ := exists_digits_of_readDigits hread
  refine ⟨sign, digits, hsign, by simpa using hsome, hdigits, htext, ?_⟩
  rw [readDigits_map_digitChar hdigits hlimit, Nat.zero_mul, Nat.zero_add] at hread
  split at hread
  · exact Except.ok.inj hread
  · cases hread

theorem readUnsigned_eq_ok_iff (hlimit : 0 < limit) :
    readUnsigned limit text = .ok n ↔ Spells text n ∧ n < limit := by
  constructor
  · intro h
    have hspells := spells_of_readUnsigned hlimit h
    rw [readUnsigned_of_spells hlimit hspells] at h
    split at h
    · exact ⟨hspells, ‹_›⟩
    · cases h
  · rintro ⟨hspells, hlt⟩
    rw [readUnsigned_of_spells hlimit hspells, if_pos hlt]

end Text

namespace CommandLine

open Text

variable {text : String} {n : Nat}

theorem readSize_of_spells (h : Spells text n) :
    readSize text =
      if n < UInt64.size then
        if hsize : 1 ≤ n ∧ n ≤ maxBoardSize then .ok ⟨n, hsize.1, hsize.2⟩
        else .error s!"invalid board size: {n} (expected 1..=24)"
      else .error "number too large to fit in target type" := by
  rw [readSize, readWord, readUnsigned_of_spells (by decide) h]
  by_cases hword : n < UInt64.size
  · rw [if_pos hword, if_pos hword]
    by_cases hsize : 1 ≤ n ∧ n ≤ maxBoardSize
    · simp only [BoardSize.ofNat, dif_pos hsize]
    · simp only [BoardSize.ofNat, dif_neg hsize]
      rfl
  · rw [if_neg hword, if_neg hword]
    rfl

theorem readSize_eq_ok_iff (text : String) (size : BoardSize) :
    readSize text = .ok size ↔ Spells text size.rows := by
  constructor
  · intro h
    rw [readSize] at h
    split at h
    · cases h
    · rename_i n hread
      split at h
      · rename_i other hother
        cases h
        rw [(BoardSize.ofNat_eq_ok_iff n size).mp hother]
        exact ((readUnsigned_eq_ok_iff (by decide)).mp hread).1
      · cases h
  · intro h
    have hmax : size.rows < UInt64.size := Nat.lt_of_le_of_lt size.rows_le_max (by decide)
    rw [readSize_of_spells h, if_pos hmax, dif_pos ⟨size.one_le_rows, size.rows_le_max⟩]

/-- A text is taken as the size of a board exactly if it is a numeral of a number from 1 to 24, and
then as that number; whatever else it is, it is refused with a reason. A numeral of 0 or of a
number above 24 is refused as such, unless the number is no 64-bit word. -/
theorem readSize_takes_numerals (text : String) :
    (∀ n, (∃ size, readSize text = .ok size ∧ size.rows = n) ↔
      Spells text n ∧ 1 ≤ n ∧ n ≤ 24) ∧
    ((¬∃ n, Spells text n ∧ 1 ≤ n ∧ n ≤ 24) ↔ ∃ reason, readSize text = .error reason) ∧
    ∀ n, Spells text n → ¬(1 ≤ n ∧ n ≤ 24) →
      readSize text = .error (if n < 2 ^ 64 then s!"invalid board size: {n} (expected 1..=24)"
        else "number too large to fit in target type") := by
  have htaken : ∀ n, (∃ size, readSize text = .ok size ∧ size.rows = n) ↔
      Spells text n ∧ 1 ≤ n ∧ n ≤ 24 := by
    intro n
    simp only [readSize_eq_ok_iff]
    constructor
    · rintro ⟨size, hspells, rfl⟩
      exact ⟨hspells, size.one_le_rows, size.rows_le_max⟩
    · rintro ⟨hspells, hlow, hhigh⟩
      exact ⟨⟨n, hlow, hhigh⟩, hspells, rfl⟩
  refine ⟨htaken, ?_, ?_⟩
  · simp only [← htaken]
    cases readSize text with
    | ok size => simp
    | error reason => simp
  · intro n hspells hsize
    have hmax : ¬(1 ≤ n ∧ n ≤ maxBoardSize) := hsize
    have hword : UInt64.size = 2 ^ 64 := rfl
    rw [readSize_of_spells hspells, dif_neg hmax, hword]
    exact (apply_ite Except.error _ _ _).symm

/-- Zeros in front do not matter, a number that is a size with a word's worth added to it is none,
and an underscore does not part digits. -/
theorem sizes_taken :
    (∃ size, readSize "+0024" = .ok size ∧ size.rows = 24) ∧
      readSize "18446744073709551624" = .error "number too large to fit in target type" ∧
      ∃ reason, readSize "1_0" = .error reason := by
  have hsize : Spells "+0024" 24 := ⟨['+'], [0, 0, 2, 4], .inr rfl, by decide, by decide, by decide,
    by decide⟩
  have hword : Spells "18446744073709551624" (2 ^ 64 + 8) :=
    ⟨[], [1, 8, 4, 4, 6, 7, 4, 4, 0, 7, 3, 7, 0, 9, 5, 5, 1, 6, 2, 4], .inl rfl, by decide,
      by decide, by decide, by decide⟩
  obtain ⟨htaken, _, _⟩ := readSize_takes_numerals "+0024"
  obtain ⟨_, _, hlarge⟩ := readSize_takes_numerals "18446744073709551624"
  obtain ⟨_, hrefused, _⟩ := readSize_takes_numerals "1_0"
  refine ⟨(htaken 24).mpr ⟨hsize, by decide⟩, hlarge _ hword (by decide), hrefused.mp ?_⟩
  rintro ⟨n, hspells, _⟩
  have hunderscore := hspells.isDigit_or_eq_plus (show '_' ∈ "1_0".toList by decide)
  exact absurd hunderscore (by decide)

end CommandLine

end QueensPuzzle
