/-! # The small parts of JSON texts

Blanks, digits, names and strings. A scanner takes the characters in front of it
and gives what it read with the characters behind. What a string holds is read in
two steps: first its pieces, in which an escaped number stands for a 16-bit unit,
then the characters that the pieces make. A text that is only skipped goes through
the first step alone.
-/

namespace QueensPuzzle.Json

def isBlank (c : Char) : Bool := c == ' ' || c == '\t' || c == '\n' || c == '\r'

def skipBlanks (text : List Char) : List Char := text.dropWhile isBlank

/-- What follows `symbol`, which may have blanks in front of it. -/
def expect (symbol : Char) (text : List Char) : Option (List Char) :=
  match skipBlanks text with
  | [] => none
  | c :: rest => if c == symbol then some rest else none

/-- What follows a word. -/
def dropWord : List Char → List Char → Option (List Char)
  | [], text => some text
  | _ :: _, [] => none
  | w :: word, c :: text => if c == w then dropWord word text else none

/-! ## Numbers -/

def digitsValue (digits : List Char) : Nat :=
  digits.foldl (fun n c => 10 * n + (c.toNat - '0'.toNat)) 0

/-- The digits of a whole number, of which only a lone one may be a zero in front. -/
def scanDigits (text : List Char) : Option (List Char × List Char) :=
  match text.takeWhile Char.isDigit, text.dropWhile Char.isDigit with
  | [], _ => none
  | '0' :: _ :: _, _ => none
  | digits, rest => some (digits, rest)

/-- A whole number without a fraction and an exponent. A zero has no sign. -/
def scanInt (text : List Char) : Option (Int × List Char) :=
  let (negative, text) :=
    match text with
    | '-' :: rest => (true, rest)
    | _ => (false, text)
  match scanDigits text with
  | none => none
  | some (digits, rest) =>
      if rest.head?.any fun c => c == '.' || c == 'e' || c == 'E' then none
      else
        let n := digitsValue digits
        if !negative then some (n, rest)
        else if n == 0 then none
        else some (-(n : Int), rest)

/-- What follows at least one digit. -/
def dropDigits (text : List Char) : Option (List Char) :=
  if text.head?.any Char.isDigit then some (text.dropWhile Char.isDigit) else none

/-- What follows the exponent, if there is one. -/
def dropExponent (text : List Char) : Option (List Char) :=
  match text with
  | [] => some []
  | c :: rest =>
      if c == 'e' || c == 'E' then
        match rest with
        | '+' :: rest => dropDigits rest
        | '-' :: rest => dropDigits rest
        | _ => dropDigits rest
      else some text

/-- What follows a number of any kind. -/
def dropNumber (text : List Char) : Option (List Char) :=
  let text :=
    match text with
    | '-' :: rest => rest
    | _ => text
  match scanDigits text with
  | none => none
  | some (_, '.' :: rest) => (dropDigits rest).bind dropExponent
  | some (_, rest) => dropExponent rest

/-! ## Strings -/

/-- A part of a string: a character, or a 16-bit unit that is given by its number. -/
inductive Piece where
  | plain (c : Char)
  | unit (code : Nat)
  deriving DecidableEq, Repr

def hexValue (c : Char) : Option Nat :=
  if c.isDigit then some (c.toNat - '0'.toNat)
  else if 'a' ≤ c && c ≤ 'f' then some (c.toNat - 'a'.toNat + 10)
  else if 'A' ≤ c && c ≤ 'F' then some (c.toNat - 'A'.toNat + 10)
  else none

def hexUnit (a b c d : Char) : Option Nat := do
  let a ← hexValue a
  let b ← hexValue b
  let c ← hexValue c
  let d ← hexValue d
  return ((a * 16 + b) * 16 + c) * 16 + d

/-- The character that a backslash and a letter stand for. -/
def unescaped (c : Char) : Option Char :=
  if c == '"' || c == '\\' || c == '/' then some c
  else if c == 'b' then some '\x08'
  else if c == 't' then some '\t'
  else if c == 'n' then some '\n'
  else if c == 'f' then some '\x0c'
  else if c == 'r' then some '\r'
  else none

/-- The pieces up to the closing quote, behind those that were read before. -/
def scanPieces (before : List Piece) : List Char → Option (List Piece × List Char)
  | [] => none
  | '"' :: rest => some (before.reverse, rest)
  | '\\' :: 'u' :: a :: b :: c :: d :: rest =>
      match hexUnit a b c d with
      | some code => scanPieces (.unit code :: before) rest
      | none => none
  | '\\' :: c :: rest =>
      match unescaped c with
      | some c => scanPieces (.plain c :: before) rest
      | none => none
  | c :: rest => if c.toNat < 32 then none else scanPieces (.plain c :: before) rest

def isLeading (code : Nat) : Bool := 0xD800 ≤ code && code < 0xDC00

def isTrailing (code : Nat) : Bool := 0xDC00 ≤ code && code < 0xE000

/-- The characters of the pieces. A leading unit and a trailing one behind it make one
character together; alone they make none. -/
def assemble : List Piece → Option (List Char)
  | [] => some []
  | .plain c :: rest => (assemble rest).map (c :: ·)
  | .unit a :: .unit b :: rest =>
      if isLeading a then
        if isTrailing b then
          (assemble rest).map (Char.ofNat (0x10000 + (a - 0xD800) * 0x400 + (b - 0xDC00)) :: ·)
        else none
      else if isTrailing a then none
      else (assemble (.unit b :: rest)).map (Char.ofNat a :: ·)
  | .unit a :: rest =>
      if isLeading a || isTrailing a then none else (assemble rest).map (Char.ofNat a :: ·)

/-- A string in quotes, which may have blanks in front of it. -/
def scanString (text : List Char) : Option (String × List Char) := do
  let (pieces, rest) ← scanPieces [] (← expect '"' text)
  let chars ← assemble pieces
  return (String.ofList chars, rest)

/-- What follows a string that nobody looks at. -/
def dropString (text : List Char) : Option (List Char) := do
  let (_, rest) ← scanPieces [] (← expect '"' text)
  return rest

/-! ## Skipping -/

inductive Bracket where
  | square
  | curly
  deriving DecidableEq, Repr

/-- What follows a value that is neither a list nor an object. -/
def dropScalar (text : List Char) : Option (List Char) :=
  match text with
  | 'n' :: rest => dropWord ['u', 'l', 'l'] rest
  | 't' :: rest => dropWord ['r', 'u', 'e'] rest
  | 'f' :: rest => dropWord ['a', 'l', 's', 'e'] rest
  | '"' :: _ => dropString text
  | _ => dropNumber text

/-- What follows the name of a member and its colon. -/
def dropName (text : List Char) : Option (List Char) := (dropString text).bind (expect ':')

/-- Goes on skipping inside the brackets that are still open. At the start of a value
`atValue` holds; otherwise a value has just ended. `fuel` counts the symbols. -/
def skipInside : Nat → Bool → List Bracket → List Char → Option (List Char)
  | 0, _, _, _ => none
  | fuel + 1, true, opened, text =>
      match skipBlanks text with
      | '[' :: rest =>
          match expect ']' rest with
          | some rest => skipInside fuel false opened rest
          | none => skipInside fuel true (.square :: opened) rest
      | '\x7b' :: rest =>
          match expect '\x7d' rest with
          | some rest => skipInside fuel false opened rest
          | none =>
              match dropName rest with
              | some rest => skipInside fuel true (.curly :: opened) rest
              | none => none
      | text =>
          match dropScalar text with
          | some rest => skipInside fuel false opened rest
          | none => none
  | _ + 1, false, [], text => some text
  | fuel + 1, false, .square :: opened, text =>
      match skipBlanks text with
      | ',' :: rest => skipInside fuel true (.square :: opened) rest
      | ']' :: rest => skipInside fuel false opened rest
      | _ => none
  | fuel + 1, false, .curly :: opened, text =>
      match skipBlanks text with
      | ',' :: rest =>
          match dropName rest with
          | some rest => skipInside fuel true (.curly :: opened) rest
          | none => none
      | '\x7d' :: rest => skipInside fuel false opened rest
      | _ => none

/-- What follows a value of any kind. Each symbol takes a character at least, so the
length of the text is fuel enough. -/
def skipValue (text : List Char) : Option (List Char) :=
  skipInside (text.length + 2) true [] text

end QueensPuzzle.Json
