/-! # JSON values and their texts

The values that the program writes, in which a number is a whole number. The
compact text has no blanks; the indented one puts every member and every element
on a line of its own, two blanks further in than what encloses it.
-/

namespace QueensPuzzle

inductive Json where
  | null
  | bool (value : Bool)
  | int (value : Int)
  | string (value : String)
  | array (elements : List Json)
  | object (members : List (String × Json))

namespace Json

def nat (n : Nat) : Json := .int n

/-- A character of a string. Only the quote, the backslash and the control characters
have an escape; five of the control characters have a short one. -/
def escaped (c : Char) : List Char :=
  if c == '"' || c == '\\' then ['\\', c]
  else if c == '\x08' then ['\\', 'b']
  else if c == '\t' then ['\\', 't']
  else if c == '\n' then ['\\', 'n']
  else if c == '\x0c' then ['\\', 'f']
  else if c == '\r' then ['\\', 'r']
  else if c.toNat < 32 then
    ['\\', 'u', '0', '0', Nat.digitChar (c.toNat / 16), Nat.digitChar (c.toNat % 16)]
  else [c]

def stringChars (text : String) : List Char :=
  '"' :: (text.toList.flatMap escaped ++ ['"'])

def intChars : Int → List Char
  | .ofNat n => Nat.toDigits 10 n
  | .negSucc n => '-' :: Nat.toDigits 10 (n + 1)

mutual

def chars : Json → List Char
  | .null => ['n', 'u', 'l', 'l']
  | .bool true => ['t', 'r', 'u', 'e']
  | .bool false => ['f', 'a', 'l', 's', 'e']
  | .int n => intChars n
  | .string text => stringChars text
  | .array [] => ['[', ']']
  | .array (element :: rest) => '[' :: (element.chars ++ elementChars rest)
  | .object [] => ['\x7b', '\x7d']
  | .object ((name, value) :: rest) =>
      '\x7b' :: (stringChars name ++ ':' :: (value.chars ++ memberChars rest))

/-- The elements behind the first one, and the closing bracket. -/
def elementChars : List Json → List Char
  | [] => [']']
  | element :: rest => ',' :: (element.chars ++ elementChars rest)

/-- The members behind the first one, and the closing brace. -/
def memberChars : List (String × Json) → List Char
  | [] => ['\x7d']
  | (name, value) :: rest =>
      ',' :: (stringChars name ++ ':' :: (value.chars ++ memberChars rest))

end

/-- The compact text. -/
def text (json : Json) : String := String.ofList json.chars

def newline (indent : Nat) : List Char := '\n' :: List.replicate (2 * indent) ' '

mutual

def indentedChars (indent : Nat) : Json → List Char
  | .array (element :: rest) =>
      '[' :: (newline (indent + 1) ++ element.indentedChars (indent + 1)
        ++ indentedElements indent rest)
  | .object ((name, value) :: rest) =>
      '\x7b' :: (newline (indent + 1) ++ stringChars name ++ ':' :: ' '
        :: value.indentedChars (indent + 1) ++ indentedMembers indent rest)
  | json => json.chars

def indentedElements (indent : Nat) : List Json → List Char
  | [] => newline indent ++ [']']
  | element :: rest =>
      ',' :: (newline (indent + 1) ++ element.indentedChars (indent + 1)
        ++ indentedElements indent rest)

def indentedMembers (indent : Nat) : List (String × Json) → List Char
  | [] => newline indent ++ ['\x7d']
  | (name, value) :: rest =>
      ',' :: (newline (indent + 1) ++ stringChars name ++ ':' :: ' '
        :: value.indentedChars (indent + 1) ++ indentedMembers indent rest)

end

def indented (json : Json) : String := String.ofList (json.indentedChars 0)

end Json

end QueensPuzzle
