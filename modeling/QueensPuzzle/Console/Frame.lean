import QueensPuzzle.Console.Game

/-! # Frames

What the game draws on a terminal of a given size: the board, the panel beside it
and the keys below. Places are counted from the top left corner of the terminal.
-/

namespace QueensPuzzle.Console

def squareWidth : Nat := 3

def panelWidth : Nat := 28

structure Layout where
  x : Nat
  y : Nat
  gridWidth : Nat
  gridHeight : Nat
  deriving DecidableEq, Repr

namespace Layout

/-- The board with its panel is centered where the terminal is wide enough. -/
def of (rows width height : Nat) : Layout :=
  let gridWidth := rows * squareWidth + 2
  let gridHeight := rows + 2
  let totalWidth := gridWidth + 3 + panelWidth
  { x := if totalWidth < width then (width - totalWidth) / 2 else 1
    y := if gridHeight + 8 < height then 2 else 1
    gridWidth
    gridHeight }

def panelX (layout : Layout) : Nat := layout.x + layout.gridWidth + 3

def controlsY (layout : Layout) : Nat := layout.y + layout.gridHeight + 1

end Layout

namespace Game

def colors (game : Game) : Theme := game.theme.theme

/-! ## The board -/

def borderPiece (game : Game) (text : String) : List Output :=
  [.background game.colors.background, .foreground game.colors.border, .print text]

def horizontalLine (game : Game) : String :=
  String.ofList (List.replicate (game.rows * squareWidth) '─')

/-- The ground of a square. The cursor is hidden while a search is played. -/
def squareColor (game : Game) (square : Square) : Color :=
  if square = game.cursor ∧ !game.isPlaying then game.colors.cursor
  else
    match Shade.of square.row square.column with
    | .white => game.colors.lightSquare
    | .black => game.colors.darkSquare

def glyph (game : Game) : Occupancy → String × Color
  | .queen => ("Q", game.colors.queen)
  | .empty => ("·", game.colors.free)
  | .blocked => (" ", game.colors.foreground)

def squareOutputs (game : Game) (square : Square) (occupancy : Occupancy) : List Output :=
  let (glyph, color) := game.glyph occupancy
  [.background (game.squareColor square), .foreground color, .print (" " ++ glyph ++ " ")]

def rowOutputs (game : Game) (x y : Nat) (row : Diagram.Row) : List Output :=
  .moveTo x (y + 1 + row.index) :: game.borderPiece "│"
    ++ row.entries.flatMap (fun entry => game.squareOutputs entry.cell.square entry.occupancy)
    ++ game.borderPiece "│"

def boardOutputs (game : Game) (diagram : Diagram) (x y : Nat) : List Output :=
  .moveTo x y :: game.borderPiece ("┌" ++ game.horizontalLine ++ "┐")
    ++ diagram.rows.flatMap (game.rowOutputs x y)
    ++ .moveTo x (y + 1 + game.rows) :: game.borderPiece ("└" ++ game.horizontalLine ++ "┘")

/-! ## The panel -/

def statusLine (game : Game) : String × Color :=
  match game.status with
  | .editing => ("Editing", game.colors.info)
  | .searching => ("Searching...", game.colors.key)
  | .paused => ("Paused", game.colors.info)
  | .solved => ("Solved", game.colors.success)
  | .noSolution => ("No solution", game.colors.error)

def panelLines (game : Game) : List (String × Color) :=
  let (status, statusColor) := game.statusLine
  [(s!"N-QUEENS {game.rows}x{game.rows}", game.colors.foreground),
    ("", game.colors.foreground),
    (s!"Engine:  {game.config.engine.name}", game.colors.info),
    (s!"Queens:  {game.position.queenCount}/{game.rows}", game.colors.info),
    (s!"Steps:   {game.steps}", game.colors.info),
    (s!"Status:  {status}", statusColor)]

def panelOutputs (game : Game) (x y : Nat) : List Output :=
  (game.panelLines.zipIdx.flatMap fun ((text, color), line) =>
      [.moveTo x (y + line), .background game.colors.background, .foreground color, .print text])
    ++
    match game.message with
    | some message =>
        [.moveTo x (y + game.panelLines.length + 1), .foreground game.colors.key, .print message.text]
    | none => []

/-! ## The keys -/

/-- Keys with what they do, line by line. -/
def controls : List (List (String × String)) :=
  [[("←↑↓→", "move"), ("Enter", "queen"), ("s", "solve"), ("e", "engine")],
    [("p", "play/pause"), ("n", "step"), ("+/-", "size"), ("c", "clear")],
    [("t", "theme"), ("q", "quit")]]

def controlsOutputs (game : Game) (x y : Nat) : List Output :=
  controls.zipIdx.flatMap fun (keys, line) =>
    .moveTo x (y + line) :: .background game.colors.background ::
      keys.flatMap fun (key, label) =>
        [.foreground game.colors.key, .print key,
          .foreground game.colors.info, .print (" " ++ label ++ "   ")]

/-! ## The whole -/

/-- Everything that is sent for one frame, and the game with the cells that it took. -/
def frame (width height : Nat) (game : Game) : List Output × Game :=
  let layout := Layout.of game.rows width height
  let (diagram, next) := game.diagram
  let outputs :=
    [.hideCursor, .background game.colors.background, .clear]
      ++ game.boardOutputs diagram layout.x layout.y
      ++ game.panelOutputs layout.panelX layout.y
      ++ game.controlsOutputs layout.x layout.controlsY
      ++ [.resetColor, .showCursor]
  (outputs, next)

end Game

end QueensPuzzle.Console
