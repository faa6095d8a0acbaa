import QueensPuzzle.Engine

/-! # Events

What the searches and the terminal program report while they work. An event is
data: it holds what happened, and its level, its place and its line of text are
functions of it.
-/

namespace QueensPuzzle

/-- How important an event is, the least first. -/
inductive Level where
  | trace
  | debug
  | info
  | warn
  deriving DecidableEq, Repr

namespace Level

def rank : Level → Nat
  | .trace => 0
  | .debug => 1
  | .info => 2
  | .warn => 3

def label : Level → String
  | .trace => "TRACE"
  | .debug => "DEBUG"
  | .info => "INFO"
  | .warn => "WARN"

end Level

inductive Event where
  /-- A best-first search closed a record and took in its neighbors. -/
  | expanded (slot discovered : Nat)
  | goalReached (expansions : Nat)
  | openSetExhausted (expansions : Nat)
  /-- A depth-first walk went on to a node that is no solution. -/
  | enteredDepth (depth : Nat)
  | solutionFound (advances : Nat)
  | treeExhausted (advances : Nat)
  | solved (size : Nat) (engine : Engine) (found : Bool)
  /-- The search that the terminal program plays came to its end. -/
  | playbackFinished (found : Bool) (steps : Nat)
  | advanceFailed (fault : Fault)
  deriving DecidableEq, Repr

namespace Event

def level : Event → Level
  | .expanded .. | .enteredDepth .. => .trace
  | .advanceFailed .. => .warn
  | _ => .debug

/-- The part of the program that reports the event. -/
def place : Event → String
  | .expanded .. | .goalReached .. | .openSetExhausted .. => "nqueens_core::search::astar"
  | .enteredDepth .. | .solutionFound .. | .treeExhausted .. => "nqueens_core::search::backtrack"
  | .solved .. => "nqueens_core::queens"
  | .playbackFinished .. | .advanceFailed .. => "nqueens::app"

def text : Event → String
  | .expanded slot discovered => s!"a*: expanded record {slot} ({discovered} discovered)"
  | .goalReached expansions => s!"a*: goal reached after {expansions} expansions"
  | .openSetExhausted expansions => s!"a*: open set exhausted after {expansions} expansions"
  | .enteredDepth depth => s!"backtracking: entered depth {depth}"
  | .solutionFound advances => s!"backtracking: solution after {advances} advances"
  | .treeExhausted advances => s!"backtracking: exhausted after {advances} advances"
  | .solved size engine found => s!"solve: size={size} engine={engine.name} found={found}"
  | .playbackFinished found steps =>
      let status := if found then "Solved" else "NoSolution"
      s!"incremental search finished: {status} after {steps} steps"
  | .advanceFailed fault => s!"advance failed: {fault.message}"

/-- The line that a log shows, such as `[DEBUG place] text`. -/
def line (event : Event) : String :=
  "[" ++ event.level.label ++ " " ++ event.place ++ "] " ++ event.text

/-- The lines of the events at or above `least`, in order. -/
def lines (least : Level) (events : List Event) : List String :=
  (events.filter fun event => least.rank ≤ event.level.rank).map line

end Event

end QueensPuzzle
