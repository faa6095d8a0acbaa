import QueensPuzzle.Board.Position
import QueensPuzzle.Config
import QueensPuzzle.Console.Key
import QueensPuzzle.Console.Theme
import QueensPuzzle.Solver

/-! # The terminal game

A board with a cursor on it. Queens are placed by hand, by an engine at one go, or
by a search that is played step by step. Each key event and each tick of the timer
makes a new state of the game.
-/

namespace QueensPuzzle.Console

open Search

inductive Status where
  | editing
  /-- A search is played on the timer. -/
  | searching
  /-- The search that is played stands still. -/
  | paused
  | solved
  | noSolution
  deriving DecidableEq, Repr

inductive Message where
  | engineChosen (engine : Engine)
  | squareAttacked
  | solvedByHand
  | solvedWith (engine : Engine)
  | noSolution
  | solvedIn (steps : Nat)
  | noSolutionAfter (steps : Nat)
  | boardResized (size : BoardSize)
  | failed (fault : Fault)
  deriving DecidableEq, Repr

def Message.text : Message → String
  | .engineChosen engine => s!"Engine: {engine.name}"
  | .squareAttacked => "Square is attacked"
  | .solvedByHand => "Solved by hand!"
  | .solvedWith engine => s!"Solved with {engine.name}"
  | .noSolution => "No solution"
  | .solvedIn steps => s!"Solved in {steps} steps"
  | .noSolutionAfter steps => s!"No solution after {steps} steps"
  | .boardResized size => s!"Board: {size.text}x{size.text}"
  | .failed fault => s!"Error: {fault.message}"

structure Game where
  config : Config
  position : Position
  cells : CellCache
  cursor : Square
  theme : ThemeName
  status : Status
  message : Option Message
  pending : Option (Walk Placement)
  /-- Steps that the search took which was played last. -/
  steps : Nat
  delay : Nat

/-- The delay of a game that is not told one. -/
def defaultDelay : Nat := 120

namespace Game

def new (config : Config) (theme : ThemeName) (delay : Nat) : Game where
  config := config
  position := .empty
  cells := CellCache.new config.boardSize.rows
  cursor := ⟨0, 0⟩
  theme := theme
  status := .editing
  message := none
  pending := none
  steps := 0
  delay := delay

instance : Inhabited Game := ⟨new default default defaultDelay⟩

def rows (game : Game) : Nat := game.config.boardSize.rows

def isPlaying (game : Game) : Bool := game.status == .searching

def occupancyAt (square : Square) (game : Game) : Occupancy × Game :=
  let (cell, cells) := CellCache.get square.row square.column game.cells
  (game.position.occupancy cell, { game with cells })

def diagram (game : Game) : Diagram × Game :=
  let (diagram, cells) := game.position.describe game.cells
  (diagram, { game with cells })

/-! ## Editing -/

/-- The square next to the cursor, or the cursor's own at the edge of the board. -/
def moved (direction : Direction) (game : Game) : Square :=
  let ⟨row, column⟩ := game.cursor
  match direction with
  | .up => ⟨row - 1, column⟩
  | .down => ⟨min (row + 1) (game.rows - 1), column⟩
  | .left => ⟨row, column - 1⟩
  | .right => ⟨row, min (column + 1) (game.rows - 1)⟩

/-- Toggles the queen under the cursor. This ends a search. -/
def toggleQueen (game : Game) : Game :=
  let (cell, cells) := CellCache.get game.cursor.row game.cursor.column game.cells
  let (before, position) := game.position.toggle cell
  let game := { game with cells, position, pending := none, status := .editing }
  if before = .blocked then { game with message := some .squareAttacked }
  else if position.queenCount = game.rows then
    { game with status := .solved, message := some .solvedByHand }
  else game

def clear (game : Game) : Game :=
  { game with position := .empty, pending := none, steps := 0, status := .editing, message := none }

def resize (size : BoardSize) (game : Game) : Game :=
  let game :=
    { game with
      config := { game.config with boardSize := size }
      cells := CellCache.new size.rows
      cursor := ⟨0, 0⟩ }
  { game.clear with message := some (.boardResized size) }

/-! ## Solving at one go -/

def solve (game : Game) : Game × List Event :=
  let engine := game.config.engine
  let solution := engine.solve game.rows
  let game := { game with pending := none }
  match solution.queens with
  | some queens =>
      ({ game with
          position := .ofSquares queens game.rows
          status := .solved
          message := some (.solvedWith engine) }, solution.events)
  | none =>
      ({ game with position := .empty, status := .noSolution, message := some .noSolution },
        solution.events)

/-! ## Playing a search -/

/-- Shows the candidate of a walk on the board, if there is one. -/
def showCandidate (walk : Walk Placement) (game : Game) : Game :=
  match walk.candidate with
  | some placement => { game with position := .ofSquares placement.queens game.rows }
  | none => game

def startSearch (game : Game) : Game :=
  let walk := (Placement.empty game.rows).walk
  { game.showCandidate walk with steps := 0, message := none, pending := some walk }

def finish (walk : Walk Placement) (game : Game) : Game × List Event :=
  let found := walk.solution.isSome
  let game :=
    if found then
      { game with status := .solved, message := some (.solvedIn walk.advances) }
    else
      { game with
        position := .empty
        status := .noSolution
        message := some (.noSolutionAfter walk.advances) }
  (game, [.playbackFinished found walk.advances])

def advance (walk : Walk Placement) (game : Game) : Game × List Event :=
  if walk.isFinal then finish walk { game with pending := none }
  else
    match walk.advance Placement.tree with
    | .ok next =>
        let game := ({ game with steps := next.advances, pending := none }).showCandidate next
        if next.isFinal then
          let (game, events) := game.finish next
          (game, next.event :: events)
        else ({ game with pending := some next }, [next.event])
    | .error fault =>
        ({ game with pending := none, status := .editing, message := some (.failed fault) },
          [.advanceFailed fault])

/-- One step of the search that is pending, or of a new one. -/
def stepOnce (game : Game) : Game × List Event :=
  match game.pending with
  | some walk => game.advance walk
  | none => game.startSearch.advance (Placement.empty game.rows).walk

/-- Stops the search that is played, goes on with the one that stands still, or starts. -/
def togglePlayback (game : Game) : Game :=
  if game.status = .searching then { game with status := .paused }
  else if game.status = .paused ∧ game.pending.isSome then { game with status := .searching }
  else { game.startSearch with status := .searching }

/-! ## Events -/

structure Reaction where
  game : Game
  events : List Event := []
  quits : Bool := false

def perform (game : Game) : Command → Reaction
  | .quit => { game, quits := true }
  | .move direction => { game := { game with cursor := game.moved direction } }
  | .toggleQueen => { game := game.toggleQueen }
  | .solve =>
      let (game, events) := game.solve
      { game, events }
  | .togglePlayback => { game := game.togglePlayback }
  | .stepOnce =>
      let (game, events) := ({ game with status := .paused }).stepOnce
      { game, events }
  | .nextEngine =>
      let engine := game.config.engine.next
      { game :=
          { game with
            config := { game.config with engine }
            message := some (.engineChosen engine) } }
  | .grow => { game := game.resize game.config.boardSize.grow }
  | .shrink => { game := game.resize game.config.boardSize.shrink }
  | .clear => { game := game.clear }
  | .nextTheme => { game := { game with theme := game.theme.next } }

def press (key : Key) (game : Game) : Reaction :=
  match key.command? with
  | some command => game.perform command
  | none => { game }

/-- What the timer does: it moves a search that is played. -/
def tick (game : Game) : Game × List Event :=
  if game.isPlaying then game.stepOnce else (game, [])

end Game

end QueensPuzzle.Console
