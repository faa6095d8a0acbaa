import QueensPuzzle.Board.Codec
import QueensPuzzle.CommandLine.Words
import QueensPuzzle.Solver

/-! # Reports

What the program prints when it is not played: one solution, or the steps of the
search for one.
-/

namespace QueensPuzzle.CommandLine

open Search

structure Report where
  output : String
  events : List Event
  trouble : Option String := none
  exitCode : Nat := 0

/-! ## Solutions -/

def solutionJson (config : Config) (queens : Option (List Square)) : Json :=
  .object
    [("board_size", config.boardSize.toJson), ("engine", config.engine.toJson),
      ("solution",
        match queens with
        | some queens => .array (queens.map Square.toJson)
        | none => .null)]

def solutionText (size : Nat) : Option (List Square) → String
  | some queens => ((Position.ofSquares queens size).diagram size).text
  | none => s!"No solution for a {size}x{size} board\n"

/-- Solves a board. Without a solution the program ends with code 1. -/
def reportSolution (config : Config) (json : Bool) : Report :=
  let size := config.boardSize.rows
  let solution := config.engine.solve size
  { output :=
      if json then (solutionJson config solution.queens).indented ++ "\n"
      else solutionText size solution.queens
    events := solution.events
    exitCode := if solution.queens.isSome then 0 else 1 }

/-! ## Steps -/

def padded (n : Nat) : String :=
  let digits := Nat.toDigits 10 n
  String.ofList (List.replicate (6 - digits.length) ' ' ++ digits)

/-- The line of one step: its number, and the columns of the queens. -/
def stepLine (walk : Walk Placement) : String :=
  let shown :=
    match walk.candidate with
    | some placement =>
        "[" ++ " ".intercalate (placement.queens.map fun queen => toString queen.column) ++ "]"
    | none => "exhausted"
  padded walk.advances ++ "  " ++ shown

def outcomeLine (walk : Walk Placement) : String :=
  let outcome := if walk.solution.isSome then "solved" else "no solution"
  s!"{outcome} after {walk.advances} steps"

def stoppedLine (walk : Walk Placement) : String := s!"stopped after {walk.advances} steps"

structure Trace where
  lines : List String
  events : List Event
  /-- The fault that broke the trace off. -/
  fault : Option Fault

/-- The trace from a step on. `reach` is more than the number of steps that are left. -/
def traceFrom (limit : Option Nat) : Nat → Walk Placement → Trace
  | 0, _ => ⟨[], [], none⟩
  | reach + 1, walk =>
      if limit.any (· ≤ walk.advances) then ⟨[stoppedLine walk], [], none⟩
      else if walk.isFinal then ⟨[stepLine walk, outcomeLine walk], [], none⟩
      else
        match walk.advance Placement.tree with
        | .error fault => ⟨[stepLine walk], [], some fault⟩
        | .ok next =>
            let rest := traceFrom limit reach next
            ⟨stepLine walk :: rest.lines, next.event :: rest.events, rest.fault⟩

/-- Every step of the search on a board, up to a limit if there is one. -/
def trace (size : Nat) (limit : Option Nat) : Trace :=
  let root := Placement.empty size
  traceFrom limit (root.reach + 1) root.walk

def reportTrace (config : Config) (limit : Option Nat) : Report :=
  let trace := trace config.boardSize.rows limit
  { output := String.join (trace.lines.map (· ++ "\n"))
    events := trace.events
    trouble := trace.fault.map Fault.message
    exitCode := if trace.fault.isSome then 1 else 0 }

/-! ## The whole program -/

structure Ending where
  stdout : String
  stderr : List String
  exitCode : Nat

def troubleLine (trouble : String) : String := "Error: " ++ trouble

/-- Words that were not taken end the program with code 2, and a text that was asked for
is no mistake. -/
def Ending.ofUsage (error : UsageError) : Ending :=
  if error.isRequest then ⟨error.printedLine ++ "\n", [], 0⟩ else ⟨"", [error.printedLine], 2⟩

/-- The least important events that are logged. -/
def logLevel (verbose : Bool) : QueensPuzzle.Level := if verbose then .debug else .warn

def Ending.ofReport (verbose : Bool) (report : Report) : Ending :=
  ⟨report.output,
    Event.lines (logLevel verbose) report.events ++ report.trouble.toList.map troubleLine,
    report.exitCode⟩

def Options.report? (options : Options) : Option Report :=
  match options.task with
  | none | some .play => none
  | some (.solve json) => some (reportSolution options.config json)
  | some (.trace limit) => some (reportTrace options.config limit)

def Options.game (options : Options) : Console.Game :=
  .new options.config options.theme options.delay

end QueensPuzzle.CommandLine
