import QueensPuzzle.Json.Reader
import QueensPuzzle.Proofs.Json.Lexis

/-! # What readers read back

A reader reads a value back from its text if the text is read whatever stands behind it, unless what
stands there goes on with a number. Each way to make a reader from others has one law for this, and
one for what holds of every value that is read, however its text looks.
-/

namespace QueensPuzzle.Json

/-! ## Texts of values -/

theorem isBlank_eq_false_of_isDigit {c : Char} (h : c.isDigit = true) : isBlank c = false := by
  cases hblank : isBlank c with
  | false => rfl
  | true =>
      simp only [isBlank, Bool.or_eq_true, beq_iff_eq] at hblank
      obtain ((rfl | rfl) | rfl) | rfl := hblank <;> cases h

/-- A text starts with a sign that closes no list. -/
theorem exists_chars_eq (json : Json) :
    ∃ c rest, json.chars = c :: rest ∧ isBlank c = false ∧ c ≠ ']' := by
  cases json with
  | null => exact ⟨_, _, rfl, by decide, by decide⟩
  | bool value => cases value <;> exact ⟨_, _, rfl, by decide, by decide⟩
  | int n =>
      rw [chars]
      cases n with
      | ofNat n =>
          obtain ⟨first, more, hdigits, hdigit⟩ := exists_toDigits_eq n
          refine ⟨first, more, hdigits, isBlank_eq_false_of_isDigit hdigit, ?_⟩
          rintro rfl
          cases hdigit
      | negSucc n => exact ⟨_, _, rfl, by decide, by decide⟩
  | string text => exact ⟨_, _, by rw [chars]; rfl, by decide, by decide⟩
  | array elements => cases elements <;> exact ⟨_, _, by rw [chars], by decide, by decide⟩
  | object members => cases members <;> exact ⟨_, _, by rw [chars], by decide, by decide⟩

theorem expect_bracket_chars (json : Json) (rest : List Char) :
    expect ']' (json.chars ++ rest) = none := by
  obtain ⟨c, more, hchars, hblank, hne⟩ := exists_chars_eq json
  rw [hchars, List.cons_append, expect_cons_of_ne hblank hne]

theorem ends_elementChars (elements : List Json) (rest : List Char) :
    Ends (elementChars elements ++ rest) := by
  cases elements <;> rw [elementChars] <;> exact ends_cons (by decide) (by decide)

theorem ends_memberChars (members : List (String × Json)) (rest : List Char) :
    Ends (memberChars members ++ rest) := by
  cases members <;> rw [memberChars] <;> exact ends_cons (by decide) (by decide)

/-- The text of an object behind its opening brace. -/
def insideChars : List (String × Json) → List Char
  | [] => ['\x7d']
  | (name, json) :: fields => stringChars name ++ ':' :: (json.chars ++ memberChars fields)

theorem chars_object (fields : List (String × Json)) :
    (object fields).chars = '\x7b' :: insideChars fields := by
  cases fields with
  | nil => rw [chars, insideChars]
  | cons field fields => rw [chars, insideChars]

theorem length_lt_elementChars (elements : List Json) :
    elements.length < (elementChars elements).length := by
  induction elements with
  | nil => simp [elementChars]
  | cons element rest ih =>
      simp only [elementChars, List.length_cons, List.length_append]
      omega

theorem length_lt_memberChars (fields : List (String × Json)) :
    fields.length < (memberChars fields).length := by
  induction fields with
  | nil => simp [memberChars]
  | cons field fields ih =>
      simp only [memberChars, List.length_cons, List.length_append]
      omega

theorem length_lt_insideChars (fields : List (String × Json)) :
    fields.length < (insideChars fields).length := by
  cases fields with
  | nil => simp [insideChars]
  | cons field fields =>
      have hfields := length_lt_memberChars fields
      simp only [insideChars, List.length_cons, List.length_append]
      omega

theorem expect_brace_insideChars (field : String × Json) (fields : List (String × Json))
    (rest : List Char) : expect '\x7d' (insideChars (field :: fields) ++ rest) = none := by
  rw [insideChars, stringChars, List.cons_append, List.cons_append,
    expect_cons_of_ne (by decide) (by decide)]

namespace Reader

variable {α β σ : Type}

/-! ## Reading back -/

/-- The value is read from the text of the JSON value. -/
def Reads (reader : Reader α) (json : Json) (value : α) : Prop :=
  ∀ rest, Ends rest → reader (json.chars ++ rest) = .ok (value, rest)

theorem Reads.readAll {reader : Reader α} {json : Json} {value : α} (h : reader.Reads json value) :
    reader.readAll json.text = .ok value := by
  have hread := h [] ends_nil
  rw [List.append_nil] at hread
  rw [Reader.readAll, Json.text, String.toList_ofList, hread]
  rfl

theorem andThen_of_ok {reader : Reader α} {next : α → Reader β} {value : α} {text rest : List Char}
    (h : reader text = .ok (value, rest)) : reader.andThen next text = next value rest := by
  rw [andThen, h]

theorem andThen_of_error {reader : Reader α} {next : α → Reader β} {text : List Char}
    {fault : ReadFault} (h : reader text = .error fault) :
    reader.andThen next text = .error fault := by
  rw [andThen, h]

theorem andThen_assoc {γ : Type} (reader : Reader α) (f : α → Reader β) (g : β → Reader γ) :
    (reader.andThen f).andThen g = reader.andThen fun value => (f value).andThen g := by
  funext text
  simp only [andThen]
  cases reader text <;> rfl

theorem symbol_cons {c : Char} (h : isBlank c = false) (rest : List Char) :
    symbol c (c :: rest) = .ok ((), rest) := by
  rw [symbol, ofScan, expect_cons h]
  rfl

theorem Reads.map {reader : Reader α} {json : Json} {value : α} (h : reader.Reads json value)
    (f : α → β) : (reader.map f).Reads json (f value) := by
  intro rest hrest
  rw [Reader.map, andThen_of_ok (h rest hrest)]

theorem Reads.accept {reader : Reader α} {json : Json} {value : α} {result : β}
    {check : α → Except Fault β} (h : reader.Reads json value) (hcheck : check value = .ok result) :
    (reader.accept check).Reads json result := by
  intro rest hrest
  rw [Reader.accept, andThen_of_ok (h rest hrest), hcheck]

theorem reads_int {low high n : Int} (hlow : low ≤ n) (hhigh : n ≤ high) :
    (int low high).Reads (.int n) n := by
  intro rest hrest
  obtain ⟨c, more, hchars, hblank, _⟩ := exists_chars_eq (.int n)
  have hscan : scanInt (skipBlanks ((Json.int n).chars ++ rest)) = some (n, rest) := by
    rw [hchars, List.cons_append, skipBlanks_cons hblank, ← List.cons_append, ← hchars, chars,
      scanInt_intChars n hrest]
  rw [int, hscan]
  simp [hlow, hhigh]

theorem reads_word {n : Nat} (h : n < UInt64.size) : word.Reads (.nat n) n :=
  (reads_int (Int.natCast_nonneg n) (by omega)).map Int.toNat

/-- The number is one of the signed 64-bit words. -/
def IsSignedWord (n : Int) : Prop := Int64.minValue.toInt ≤ n ∧ n ≤ Int64.maxValue.toInt

theorem reads_signedWord {n : Int} (h : IsSignedWord n) : signedWord.Reads (.int n) n :=
  reads_int h.1 h.2

theorem string_stringChars (text : String) (rest : List Char) :
    string (stringChars text ++ rest) = .ok (text, rest) := by
  rw [string, ofScan, scanString_stringChars]

theorem reads_string (text : String) : string.Reads (.string text) text := by
  intro rest _
  rw [chars, string_stringChars]

theorem reads_oneOf {values : List α} {nameOf : α → String} {value : α}
    (h : values.find? (nameOf · == nameOf value) = some value) :
    (oneOf values nameOf).Reads (.string (nameOf value)) value := by
  intro rest hrest
  have hname : name ((Json.string (nameOf value)).chars ++ rest) = .ok (nameOf value, rest) := by
    have hbrace : expect '\x7b' ((Json.string (nameOf value)).chars ++ rest) = none := by
      rw [chars, stringChars, List.cons_append, expect_cons_of_ne (by decide) (by decide)]
    rw [name, hbrace]
    exact reads_string (nameOf value) rest hrest
  rw [oneOf, hname]
  simp only [h]

/-! ## Lists -/

section List

variable {element : Reader α} {toJson : α → Json} {values : List α}

theorem moreElements_elementChars (h : ∀ value ∈ values, element.Reads (toJson value) value)
    {fuel : Nat} (hfuel : values.length < fuel) (before : List α) (rest : List Char) :
    moreElements element fuel before (elementChars (values.map toJson) ++ rest) =
      .ok (before.reverse ++ values, rest) := by
  induction fuel generalizing values before with
  | zero => exact absurd hfuel (Nat.not_lt_zero _)
  | succ fuel ih =>
      cases values with
      | nil =>
          rw [List.map_nil, elementChars, List.cons_append, List.nil_append, moreElements,
            expect_cons_of_ne (by decide) (by decide), List.append_nil]
          exact andThen_of_ok (symbol_cons (by decide) rest)
      | cons value values =>
          rw [List.forall_mem_cons] at h
          rw [List.map_cons, elementChars, List.cons_append, List.append_assoc, moreElements,
            expect_cons (by decide)]
          simp only [h.1 _ (ends_elementChars _ _)]
          rw [ih h.2 (Nat.lt_of_succ_lt_succ hfuel), List.reverse_cons, List.append_assoc]
          rfl

theorem reads_list (h : ∀ value ∈ values, element.Reads (toJson value) value) :
    (list element).Reads (.array (values.map toJson)) values := by
  intro rest _
  cases values with
  | nil =>
      rw [List.map_nil, chars, list]
      simp [expect_cons, show isBlank '[' = false by decide, show isBlank ']' = false by decide]
  | cons value values =>
      rw [List.forall_mem_cons] at h
      have hlength := length_lt_elementChars (values.map toJson)
      rw [List.length_map] at hlength
      rw [List.map_cons, chars, list, List.cons_append, expect_cons (by decide), List.append_assoc]
      simp only [expect_bracket_chars, h.1 _ (ends_elementChars _ _)]
      rw [moreElements_elementChars h.2 (by rw [List.length_append]; omega)]
      rfl

theorem reads_pair {first : Reader α} {second : Reader β} {a b : Json} {x : α} {y : β}
    (hfirst : first.Reads a x) (hsecond : second.Reads b y) :
    (pair first second).Reads (.array [a, b]) (x, y) := by
  intro rest _
  have hchars : (Json.array [a, b]).chars ++ rest =
      '[' :: (a.chars ++ ',' :: (b.chars ++ ']' :: rest)) := by
    simp [chars, elementChars]
  rw [hchars, pair, andThen_of_ok (symbol_cons (by decide) _),
    andThen_of_ok (hfirst _ (ends_cons (by decide) (by decide))),
    andThen_of_ok (symbol_cons (by decide) _),
    andThen_of_ok (hsecond _ (ends_cons (by decide) (by decide)))]
  exact andThen_of_ok (symbol_cons (by decide) rest)

end List

/-! ## Records -/

section Record

variable {members : List (Member σ)} {filled next last : σ} {name : String} {json : Json}
  {fields : List (String × Json)}

/-- Reads the value of the member with the name. What no member has for its name is skipped. -/
def memberValue (members : List (Member σ)) (filled : σ) (name : String) : Reader σ :=
  match members.find? (·.name == name) with
  | some member => if member.isFilled filled then fun _ => .error .malformed else member.fill filled
  | none => ofScan fun text => (skipValue text).map (filled, ·)

/-- Reads the further members if there is a comma, and otherwise the brace. -/
def otherMembers (members : List (Member σ)) (fuel : Nat) (filled : σ) : Reader σ := fun text =>
  match expect ',' text with
  | some rest => objectMembers members fuel filled rest
  | none => ((symbol '\x7d').map fun _ => filled) text

theorem objectMembers_succ (members : List (Member σ)) (fuel : Nat) (filled : σ) :
    objectMembers members (fuel + 1) filled =
      string.andThen fun name => (symbol ':').andThen fun _ =>
        (memberValue members filled name).andThen (otherMembers members fuel) := by
  simp only [← andThen_assoc]
  funext text
  rw [objectMembers]
  split
  · rename_i hread
    exact (andThen_of_error hread).symm
  · rename_i next rest hread
    change otherMembers members fuel next rest = _
    exact (andThen_of_ok hread).symm

theorem otherMembers_nil (members : List (Member σ)) (fuel : Nat) (filled : σ)
    (rest : List Char) :
    otherMembers members fuel filled (memberChars [] ++ rest) = .ok (filled, rest) := by
  rw [memberChars, List.cons_append, List.nil_append, otherMembers,
    expect_cons_of_ne (by decide) (by decide)]
  exact andThen_of_ok (symbol_cons (by decide) rest)

theorem otherMembers_cons (members : List (Member σ)) (fuel : Nat) (filled : σ)
    (field : String × Json) (fields : List (String × Json)) (rest : List Char) :
    otherMembers members fuel filled (memberChars (field :: fields) ++ rest) =
      objectMembers members fuel filled (insideChars (field :: fields) ++ rest) := by
  rw [otherMembers, memberChars, List.cons_append, expect_cons (by decide), insideChars]

/-- The member in front is read, and then it is the turn of the others. -/
theorem objectMembers_insideChars_cons {member : Member σ}
    (hmember : members.find? (·.name == name) = some member)
    (hopen : member.isFilled filled = false) (fuel : Nat) (rest : List Char) :
    objectMembers members (fuel + 1) filled (insideChars ((name, json) :: fields) ++ rest) =
      (member.fill filled).andThen (otherMembers members fuel)
        (json.chars ++ (memberChars fields ++ rest)) := by
  have hvalue : memberValue members filled name = member.fill filled := by
    simp [memberValue, hmember, hopen]
  rw [insideChars, List.append_assoc, List.cons_append, List.append_assoc, objectMembers_succ,
    andThen_of_ok (string_stringChars name _), andThen_of_ok (symbol_cons (by decide) _), hvalue]

/-- The members of an object are read one after the other, each as one that is not filled in yet. -/
inductive Gathers (members : List (Member σ)) : σ → List (String × Json) → σ → Prop
  | nil {filled : σ} : Gathers members filled [] filled
  | cons {filled next last : σ} {name : String} {json : Json} {fields : List (String × Json)}
      (member : Member σ) (hmember : members.find? (·.name == name) = some member)
      (hopen : member.isFilled filled = false) (hread : (member.fill filled).Reads json next)
      (h : Gathers members next fields last) : Gathers members filled ((name, json) :: fields) last

theorem objectMembers_insideChars (h : Gathers members filled fields last) (hsome : fields ≠ [])
    {fuel : Nat} (hfuel : fields.length ≤ fuel) (rest : List Char) :
    objectMembers members fuel filled (insideChars fields ++ rest) = .ok (last, rest) := by
  induction h generalizing fuel with
  | nil => exact absurd rfl hsome
  | cons member hmember hopen hread hmore ih =>
      cases fuel with
      | zero => exact absurd hfuel (Nat.not_succ_le_zero _)
      | succ fuel =>
          rw [objectMembers_insideChars_cons hmember hopen,
            andThen_of_ok (hread _ (ends_memberChars _ rest))]
          cases hmore with
          | nil => exact otherMembers_nil members fuel _ rest
          | cons second hsecond hclosed hfill hmore =>
              rw [otherMembers_cons]
              exact ih (List.cons_ne_nil _ _) (Nat.le_of_succ_le_succ hfuel)

theorem reads_record {blank : σ} {finish : σ → Option α} {value : α} {field : String × Json}
    (h : Gathers members blank (field :: fields) last) (hfinish : finish last = some value) :
    (record members blank finish).Reads (.object (field :: fields)) value := by
  intro rest _
  have hlength := length_lt_insideChars (field :: fields)
  have hfuel : (field :: fields).length ≤ (insideChars (field :: fields) ++ rest).length := by
    rw [List.length_append]
    omega
  have hinside := objectMembers_insideChars h (List.cons_ne_nil _ _) hfuel rest
  rw [chars_object, List.cons_append, record, expect_cons (by decide)]
  simp only [expect_brace_insideChars, hinside, hfinish]

theorem reads_fill {reader : Reader α} {get : σ → Option α} {set : σ → Option α → σ} {value : α}
    (h : reader.Reads json value) (filled : σ) :
    ((Member.of name reader get set).fill filled).Reads json (set filled (some value)) :=
  h.map fun value => set filled (some value)

/-! ### Refused members -/

/-- The text of the JSON value is not read, for this reason. -/
def Refuses (reader : Reader α) (json : Json) (fault : ReadFault) : Prop :=
  ∀ rest, Ends rest → reader (json.chars ++ rest) = .error fault

theorem Refuses.readAll {reader : Reader α} {fault : ReadFault} (h : reader.Refuses json fault) :
    reader.readAll json.text = .error fault := by
  have hread := h [] ends_nil
  rw [List.append_nil] at hread
  rw [Reader.readAll, Json.text, String.toList_ofList, hread]

theorem Reads.refuses_accept {reader : Reader α} {value : α} {check : α → Except Fault β}
    {fault : Fault} (h : reader.Reads json value) (hcheck : check value = .error fault) :
    (reader.accept check).Refuses json (.refused fault) := by
  intro rest hrest
  rw [Reader.accept, andThen_of_ok (h rest hrest), hcheck]

theorem refuses_fill {reader : Reader α} {get : σ → Option α} {set : σ → Option α → σ}
    {fault : ReadFault} (h : reader.Refuses json fault) (filled : σ) :
    ((Member.of name reader get set).fill filled).Refuses json fault := by
  intro rest hrest
  have hread := h rest hrest
  simp only [Member.of, map, andThen, hread]

theorem exists_append_cons_eq (before : List (String × Json)) (field : String × Json)
    (more : List (String × Json)) :
    ∃ first others, before ++ field :: more = first :: others :=
  List.exists_cons_of_ne_nil (by simp)

/-- The first member that is refused is the fault of the object, whatever is behind it. -/
theorem objectMembers_of_refuses (h : Gathers members filled fields next) {member : Member σ}
    (hmember : members.find? (·.name == name) = some member) (hopen : member.isFilled next = false)
    {fault : ReadFault} (hrefuses : (member.fill next).Refuses json fault)
    {fuel : Nat} (hfuel : fields.length < fuel) (more : List (String × Json)) (rest : List Char) :
    objectMembers members fuel filled (insideChars (fields ++ (name, json) :: more) ++ rest) =
      .error fault := by
  induction h generalizing fuel with
  | nil =>
      obtain ⟨fuel, rfl⟩ := Nat.exists_eq_succ_of_ne_zero (Nat.ne_of_gt hfuel)
      rw [List.nil_append, objectMembers_insideChars_cons hmember hopen]
      exact andThen_of_error (hrefuses _ (ends_memberChars more rest))
  | @cons _ _ _ _ _ fields first hfirst hclosed hread hmore ih =>
      cases fuel with
      | zero => exact absurd hfuel (Nat.not_lt_zero _)
      | succ fuel =>
          obtain ⟨second, others, hothers⟩ := exists_append_cons_eq fields (name, json) more
          have hrest := ih hopen hrefuses (Nat.lt_of_succ_lt_succ hfuel)
          rw [hothers] at hrest
          rw [List.cons_append, hothers, objectMembers_insideChars_cons hfirst hclosed,
            andThen_of_ok (hread _ (ends_memberChars _ rest)), otherMembers_cons, hrest]

theorem refuses_record {blank : σ} {finish : σ → Option α} {member : Member σ} {fault : ReadFault}
    (h : Gathers members blank fields next)
    (hmember : members.find? (·.name == name) = some member) (hopen : member.isFilled next = false)
    (hrefuses : (member.fill next).Refuses json fault) (more : List (String × Json)) :
    (record members blank finish).Refuses (.object (fields ++ (name, json) :: more)) fault := by
  intro rest _
  have hlength := length_lt_insideChars (fields ++ (name, json) :: more)
  have hfuel : fields.length < (insideChars (fields ++ (name, json) :: more) ++ rest).length := by
    rw [List.length_append] at hlength ⊢
    omega
  have hinside := objectMembers_of_refuses h hmember hopen hrefuses hfuel more rest
  have hbrace : expect '\x7d' (insideChars (fields ++ (name, json) :: more) ++ rest) = none := by
    obtain ⟨field, others, hothers⟩ := exists_append_cons_eq fields (name, json) more
    rw [hothers, expect_brace_insideChars]
  rw [chars_object, List.cons_append, record, expect_cons (by decide)]
  simp only [hbrace, hinside]

end Record

/-! ## Whatever is read -/

/-- Whatever the reader reads, the property holds of it. -/
def Yields (reader : Reader α) (holds : α → Prop) : Prop :=
  ∀ text value rest, reader text = .ok (value, rest) → holds value

variable {holds : α → Prop} {holds' : β → Prop}

theorem yields_true (reader : Reader α) : reader.Yields fun _ => True := fun _ _ _ _ => trivial

theorem readAll_eq_ok_iff {reader : Reader α} {text : String} {value : α} :
    reader.readAll text = .ok value ↔
      ∃ rest, reader text.toList = .ok (value, rest) ∧ (skipBlanks rest).isEmpty = true := by
  constructor
  · intro h
    rw [Reader.readAll] at h
    split at h
    · cases h
    · rename_i hread
      split at h
      · rename_i hblank
        cases h
        exact ⟨_, hread, hblank⟩
      · cases h
  · rintro ⟨rest, hread, hblank⟩
    rw [Reader.readAll, hread]
    exact if_pos hblank

theorem Yields.of_readAll {reader : Reader α} (h : reader.Yields holds) {text : String} {value : α}
    (hread : reader.readAll text = .ok value) : holds value := by
  obtain ⟨rest, hresult, _⟩ := readAll_eq_ok_iff.mp hread
  exact h _ _ _ hresult

theorem Yields.andThen {reader : Reader α} {next : α → Reader β} (h : reader.Yields holds)
    (hnext : ∀ value, holds value → (next value).Yields holds') :
    (reader.andThen next).Yields holds' := by
  intro text result after hread
  rw [Reader.andThen] at hread
  cases hfirst : reader text with
  | error fault =>
      rw [hfirst] at hread
      cases hread
  | ok pair =>
      obtain ⟨value, rest⟩ := pair
      rw [hfirst] at hread
      exact hnext value (h _ _ _ hfirst) _ _ _ hread

theorem Yields.map {reader : Reader α} {f : α → β} (h : reader.Yields holds)
    (hf : ∀ value, holds value → holds' (f value)) : (reader.map f).Yields holds' := by
  refine h.andThen ?_
  rintro value hvalue _ _ _ ⟨⟩
  exact hf value hvalue

theorem accept_eq_ok_iff {reader : Reader α} {check : α → Except Fault β} {result : β}
    {text rest : List Char} :
    reader.accept check text = .ok (result, rest) ↔
      ∃ value, reader text = .ok (value, rest) ∧ check value = .ok result := by
  constructor
  · intro h
    rw [accept, andThen] at h
    split at h
    · rename_i value after hread
      split at h
      · rename_i hcheck
        cases h
        exact ⟨value, hread, hcheck⟩
      · cases h
    · cases h
  · rintro ⟨value, hread, hcheck⟩
    rw [accept, andThen_of_ok hread, hcheck]

/-- A text is taken exactly if its value is accepted. -/
theorem readAll_accept_eq_ok_iff {reader : Reader α} {check : α → Except Fault β} {text : String}
    {result : β} : (reader.accept check).readAll text = .ok result ↔
      ∃ value, reader.readAll text = .ok value ∧ check value = .ok result := by
  simp only [readAll_eq_ok_iff, accept_eq_ok_iff]
  constructor
  · rintro ⟨rest, ⟨value, hread, hcheck⟩, hblank⟩
    exact ⟨value, ⟨rest, hread, hblank⟩, hcheck⟩
  · rintro ⟨value, ⟨rest, hread, hblank⟩, hcheck⟩
    exact ⟨rest, ⟨value, hread, hcheck⟩, hblank⟩

theorem readAll_accept_of_error {reader : Reader α} {check : α → Except Fault β} {text : String}
    {value : α} {fault : Fault} (h : reader.readAll text = .ok value)
    (hcheck : check value = .error fault) :
    (reader.accept check).readAll text = .error (.refused fault) := by
  obtain ⟨rest, hread, _⟩ := readAll_eq_ok_iff.mp h
  rw [Reader.readAll, accept, andThen_of_ok hread, hcheck]

theorem yields_int (low high : Int) : (int low high).Yields fun n => low ≤ n ∧ n ≤ high := by
  intro text n rest hread
  rw [int] at hread
  split at hread
  · split at hread
    · rename_i hbounds
      cases hread
      simpa using hbounds
    · cases hread
  · cases hread

theorem yields_word : word.Yields (· < UInt64.size) := by
  refine (yields_int _ _).map ?_
  rintro n ⟨hlow, hhigh⟩
  omega

theorem yields_signedWord : signedWord.Yields IsSignedWord := yields_int _ _

theorem yields_moreElements {element : Reader α} (h : element.Yields holds) {fuel : Nat}
    {before : List α} (hbefore : ∀ value ∈ before, holds value) :
    (moreElements element fuel before).Yields fun values => ∀ value ∈ values, holds value := by
  induction fuel generalizing before with
  | zero => rintro _ _ _ ⟨⟩
  | succ fuel ih =>
      intro text values rest hread
      rw [moreElements] at hread
      split at hread
      · split at hread
        · rename_i value after helement
          refine ih ?_ _ _ _ hread
          rw [List.forall_mem_cons]
          exact ⟨h _ _ _ helement, hbefore⟩
        · cases hread
      · have hclose : ((symbol ']').map fun _ => before.reverse).Yields
            fun values => ∀ value ∈ values, holds value :=
          (yields_true _).map fun _ _ value hvalue => hbefore value (List.mem_reverse.mp hvalue)
        exact hclose _ _ _ hread

theorem yields_list {element : Reader α} (h : element.Yields holds) :
    (list element).Yields fun values => ∀ value ∈ values, holds value := by
  intro text values rest hread
  rw [list] at hread
  split at hread
  · cases hread
  · split at hread
    · cases hread
      simp
    · split at hread
      · rename_i value after helement
        refine yields_moreElements h ?_ _ _ _ hread
        simpa using h _ _ _ helement
      · cases hread

theorem yields_pair {first : Reader α} {second : Reader β} (hfirst : first.Yields holds)
    (hsecond : second.Yields holds') :
    (pair first second).Yields fun values => holds values.1 ∧ holds' values.2 := by
  refine (yields_true _).andThen fun _ _ => hfirst.andThen fun a ha => ?_
  refine (yields_true _).andThen fun _ _ => hsecond.andThen fun b hb => ?_
  exact (yields_true _).map fun _ _ => ⟨ha, hb⟩

/-! ### Records -/

section Record

variable {members : List (Member σ)} {keeps : σ → Prop} {filled : σ}

theorem forall_mem_some {value : α} (h : holds value) : ∀ other ∈ some value, holds other := by
  rintro _ ⟨⟩
  exact h

theorem yields_fill {name : String} {reader : Reader α} {get : σ → Option α}
    {set : σ → Option α → σ} (h : reader.Yields holds)
    (hset : ∀ value, holds value → keeps (set filled (some value))) :
    ((Member.of name reader get set).fill filled).Yields keeps :=
  h.map hset

theorem yields_memberValue
    (hmembers : ∀ member ∈ members, ∀ filled, keeps filled → (member.fill filled).Yields keeps)
    (h : keeps filled) (name : String) : (memberValue members filled name).Yields keeps := by
  unfold memberValue
  split
  · rename_i member hmember
    split
    · rintro _ _ _ ⟨⟩
    · exact hmembers member (List.mem_of_find?_eq_some hmember) filled h
  · -- What is skipped fills nothing in.
    intro text next rest hskip
    rw [ofScan] at hskip
    cases hrest : skipValue text with
    | none => simp [hrest] at hskip
    | some rest =>
        simp only [hrest, Option.map_some] at hskip
        cases hskip
        exact h

theorem yields_objectMembers
    (hmembers : ∀ member ∈ members, ∀ filled, keeps filled → (member.fill filled).Yields keeps)
    {fuel : Nat} (h : keeps filled) : (objectMembers members fuel filled).Yields keeps := by
  induction fuel generalizing filled with
  | zero => rintro _ _ _ ⟨⟩
  | succ fuel ih =>
      rw [objectMembers_succ]
      refine (yields_true string).andThen fun name _ => ?_
      refine (yields_true (symbol ':')).andThen fun _ _ => ?_
      refine (yields_memberValue hmembers h name).andThen fun next hnext => ?_
      intro text last rest hread
      rw [otherMembers] at hread
      split at hread
      · exact ih hnext _ _ _ hread
      · have hclose : ((symbol '\x7d').map fun _ => next).Yields keeps :=
          (yields_true _).map fun _ _ => hnext
        exact hclose _ _ _ hread

theorem yields_listMembers
    (hmembers : ∀ member ∈ members, ∀ filled, keeps filled → (member.fill filled).Yields keeps)
    (comma : Bool) (h : keeps filled) : (listMembers members comma filled).Yields keeps := by
  induction members generalizing comma filled with
  | nil => exact (yields_true _).map fun _ _ => h
  | cons member members ih =>
      rw [List.forall_mem_cons] at hmembers
      rw [listMembers]
      refine (yields_true _).andThen fun _ _ => ?_
      refine (hmembers.1 filled h).andThen fun next hnext => ?_
      exact ih hmembers.2 true hnext

theorem yields_record {blank : σ} {finish : σ → Option α}
    (hmembers : ∀ member ∈ members, ∀ filled, keeps filled → (member.fill filled).Yields keeps)
    (hblank : keeps blank)
    (hfinish : ∀ filled value, keeps filled → finish filled = some value → holds value) :
    (record members blank finish).Yields holds := by
  intro text value rest hread
  rw [record] at hread
  split at hread
  · cases hread
  · rename_i last after hfilled
    have hlast : keeps last := by
      split at hfilled
      · split at hfilled
        · cases hfilled
          exact hblank
        · exact yields_objectMembers hmembers hblank _ _ _ hfilled
      · exact (yields_true (symbol '[')).andThen
          (fun _ _ => yields_listMembers hmembers false hblank) _ _ _ hfilled
    split at hread
    · rename_i value hvalue
      cases hread
      exact hfinish last value hlast hvalue
    · cases hread

end Record

end Reader

end QueensPuzzle.Json
