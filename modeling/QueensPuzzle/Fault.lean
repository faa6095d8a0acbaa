/-! # Faults

Everything that a caller can do wrong, each with its cause.
-/

namespace QueensPuzzle

inductive Fault where
  /-- A finished search was asked for a further advance. -/
  | alreadyFinal
  | invalidBoardSize (size : Nat)
  | unknownEngine (name : String)
  deriving DecidableEq, Repr

def Fault.message : Fault → String
  | .alreadyFinal => "search already finished"
  | .invalidBoardSize size => "invalid board size: " ++ toString size
  | .unknownEngine name => "unknown engine: " ++ name

end QueensPuzzle
