/-! # Unsigned numbers as words

A number is written as ASCII digits, with any number of zeros and at most one plus
sign in front. It has to be below a limit; a text is read from left to right, and
what goes wrong first is its fault.
-/

namespace QueensPuzzle.Text

inductive NumberFault where
  | empty
  | invalidDigit
  | tooLarge
  deriving DecidableEq, Repr

def NumberFault.message : NumberFault → String
  | .empty => "cannot parse integer from empty string"
  | .invalidDigit => "invalid digit found in string"
  | .tooLarge => "number too large to fit in target type"

/-- Goes on reading digits behind those that make `n`. -/
def readDigits (limit : Nat) : Nat → List Char → Except NumberFault Nat
  | n, [] => .ok n
  | n, c :: rest =>
      if c.isDigit then
        let n := 10 * n + (c.toNat - '0'.toNat)
        if n < limit then readDigits limit n rest else .error .tooLarge
      else .error .invalidDigit

/-- Reads a number below `limit`. A sign needs a digit behind it. -/
def readUnsigned (limit : Nat) (text : String) : Except NumberFault Nat :=
  match text.toList with
  | [] => .error .empty
  | ['+'] => .error .invalidDigit
  | '+' :: digits => readDigits limit 0 digits
  | digits => readDigits limit 0 digits

def readWord (text : String) : Except NumberFault Nat := readUnsigned UInt64.size text

end QueensPuzzle.Text
