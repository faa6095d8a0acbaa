import QueensPuzzle.Text.Shapeless

/-! # Inspection texts

One line that shows a value with the names of its parts, for people who look for
a fault: `Step { final: true, depth: 0 }`, `[1, 2]`, `Some("text")`.
-/

namespace QueensPuzzle.Text

def bool (b : Bool) : String := if b then "true" else "false"

def hexDigits (n : Nat) : List Char := Nat.toDigits 16 n

def quotedChar (c : Char) : List Char :=
  if c == '\x00' then ['\\', '0']
  else if c == '\t' then ['\\', 't']
  else if c == '\r' then ['\\', 'r']
  else if c == '\n' then ['\\', 'n']
  else if c == '"' || c == '\\' then ['\\', c]
  else if isShapeless c then ['\\', 'u', '\x7b'] ++ hexDigits c.toNat ++ ['\x7d']
  else [c]

/-- A text in double quotes, with escapes for what could not be read in it. -/
def quoted (text : String) : String :=
  "\"" ++ String.ofList (text.toList.flatMap quotedChar) ++ "\""

def option (shown : Option String) : String :=
  match shown with
  | none => "None"
  | some text => "Some(" ++ text ++ ")"

def list (items : List String) : String := "[" ++ ", ".intercalate items ++ "]"

def parts (name : String) (fields : List (String × String)) : String :=
  name ++ " \x7b " ++ ", ".intercalate (fields.map fun (field, value) => field ++ ": " ++ value)
    ++ " \x7d"

end QueensPuzzle.Text
