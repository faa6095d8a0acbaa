import QueensPuzzle.Fault
import QueensPuzzle.Json.Lexis

/-! # Readers of JSON texts

A reader takes a value from the front of a text and leaves what is behind it. It
works from left to right, and the first thing that it cannot take is its fault. A
record may be written as an object, with each member once and unknown ones in
between, or as a list of all its members in their order.
-/

namespace QueensPuzzle.Json

/-- Why a text was not read. -/
inductive ReadFault where
  | malformed
  /-- The text was read so far, and a value in it was turned down. -/
  | refused (fault : Fault)
  deriving DecidableEq, Repr

abbrev Reader (α : Type) := List Char → Except ReadFault (α × List Char)

namespace Reader

variable {α β σ : Type}

def ofScan (scan : List Char → Option (α × List Char)) : Reader α := fun text =>
  match scan text with
  | some result => .ok result
  | none => .error .malformed

/-- Reads the symbol and nothing else. -/
def symbol (c : Char) : Reader Unit := ofScan fun text => (expect c text).map ((), ·)

def andThen (reader : Reader α) (next : α → Reader β) : Reader β := fun text =>
  match reader text with
  | .ok (value, rest) => next value rest
  | .error fault => .error fault

def map (f : α → β) (reader : Reader α) : Reader β :=
  reader.andThen fun value rest => .ok (f value, rest)

/-- Reads a value and then has it accepted. -/
def accept (reader : Reader α) (check : α → Except Fault β) : Reader β :=
  reader.andThen fun value rest =>
    match check value with
    | .ok result => .ok (result, rest)
    | .error fault => .error (.refused fault)

/-- Reads a whole number that lies between the bounds, both included. -/
def int (low high : Int) : Reader Int := fun text =>
  match scanInt (skipBlanks text) with
  | some (n, rest) => if low ≤ n && n ≤ high then .ok (n, rest) else .error .malformed
  | none => .error .malformed

/-- Reads an unsigned 64-bit number. -/
def word : Reader Nat := map Int.toNat (int 0 (UInt64.size - 1))

/-- Reads a signed 64-bit number. -/
def signedWord : Reader Int := int Int64.minValue.toInt Int64.maxValue.toInt

def string : Reader String := ofScan scanString

/-- Reads a name as a string, or as an object that has the name for its only member
and `null` in it. -/
def name : Reader String := fun text =>
  match expect '\x7b' text with
  | none => string text
  | some rest =>
      (string.andThen fun name =>
        (symbol ':').andThen fun _ =>
        (ofScan fun text => (dropWord ['n', 'u', 'l', 'l'] (skipBlanks text)).map ((), ·)).andThen
          fun _ => (symbol '\x7d').map fun _ => name) rest

/-- Reads one of the names. -/
def oneOf (values : List α) (nameOf : α → String) : Reader α := fun text =>
  match name text with
  | .error fault => .error fault
  | .ok (name, rest) =>
      match values.find? fun value => nameOf value == name with
      | some value => .ok (value, rest)
      | none => .error .malformed

/-- Reads the elements behind the first one, up to the bracket, in reverse on `before`. -/
def moreElements (element : Reader α) : Nat → List α → Reader (List α)
  | 0, _, _ => .error .malformed
  | fuel + 1, before, text =>
      match expect ',' text with
      | some rest =>
          match element rest with
          | .ok (value, rest) => moreElements element fuel (value :: before) rest
          | .error fault => .error fault
      | none => ((symbol ']').map fun _ => before.reverse) text

/-- Reads a list of any length. -/
def list (element : Reader α) : Reader (List α) := fun text =>
  match expect '[' text with
  | none => .error .malformed
  | some rest =>
      match expect ']' rest with
      | some rest => .ok ([], rest)
      | none =>
          match element rest with
          | .ok (value, rest) => moreElements element rest.length [value] rest
          | .error fault => .error fault

/-- Reads exactly two elements. -/
def pair (first : Reader α) (second : Reader β) : Reader (α × β) :=
  (symbol '[').andThen fun _ =>
  first.andThen fun a =>
  (symbol ',').andThen fun _ =>
  second.andThen fun b =>
  (symbol ']').map fun _ => (a, b)

/-! ## Records -/

/-- A member of a record that is being filled in. -/
structure Member (σ : Type) where
  name : String
  isFilled : σ → Bool
  fill : σ → Reader σ

/-- Fills a member in with what `reader` reads. -/
def Member.of (name : String) (reader : Reader α) (get : σ → Option α)
    (set : σ → Option α → σ) : Member σ :=
  ⟨name, fun filled => (get filled).isSome,
    fun filled => reader.map fun value => set filled (some value)⟩

/-- Reads the members of an object from a name on, and the brace behind them. A member
that is there twice is a fault, and one of an unknown name is skipped. -/
def objectMembers (members : List (Member σ)) : Nat → σ → Reader σ
  | 0, _, _ => .error .malformed
  | fuel + 1, filled, text =>
      let value := (string.andThen fun name =>
        (symbol ':').andThen fun _ =>
          match members.find? (·.name == name) with
          | some member =>
              if member.isFilled filled then fun _ => .error .malformed else member.fill filled
          | none => ofScan fun text => (skipValue text).map (filled, ·)) text
      match value with
      | .error fault => .error fault
      | .ok (filled, rest) =>
          match expect ',' rest with
          | some rest => objectMembers members fuel filled rest
          | none => ((symbol '\x7d').map fun _ => filled) rest

/-- Reads the members as a list, with a comma in front of each if `comma` holds. -/
def listMembers : List (Member σ) → Bool → σ → Reader σ
  | [], _, filled => (symbol ']').map fun _ => filled
  | member :: members, comma, filled =>
      (if comma then symbol ',' else fun text => .ok ((), text)).andThen fun _ =>
        (member.fill filled).andThen fun filled => listMembers members true filled

/-- Reads a record. It starts from `blank`, and `finish` gives the value if every member
that it needs is filled in. -/
def record (members : List (Member σ)) (blank : σ) (finish : σ → Option α) : Reader α :=
  fun text =>
    let filled : Except ReadFault (σ × List Char) :=
      match expect '\x7b' text with
      | some rest =>
          match expect '\x7d' rest with
          | some rest => .ok (blank, rest)
          | none => objectMembers members rest.length blank rest
      | none => ((symbol '[').andThen fun _ => listMembers members false blank) text
    match filled with
    | .error fault => .error fault
    | .ok (filled, rest) =>
        match finish filled with
        | some value => .ok (value, rest)
        | none => .error .malformed

/-- Reads a text as a whole; only blanks may be left over. -/
def readAll (reader : Reader α) (text : String) : Except ReadFault α :=
  match reader text.toList with
  | .error fault => .error fault
  | .ok (value, rest) => if (skipBlanks rest).isEmpty then .ok value else .error .malformed

end Reader

end QueensPuzzle.Json
