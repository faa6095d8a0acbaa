import QueensPuzzle.Board.Position
import QueensPuzzle.Json.Reader
import QueensPuzzle.Json.Value

/-! # Boards as JSON

How squares, cells, positions and diagrams are written as JSON and read again.
-/

namespace QueensPuzzle

open Json (Reader)
open Json.Reader (Member)

namespace Square

def toJson (square : Square) : Json :=
  .object [("row", .nat square.row), ("column", .nat square.column)]

structure Draft where
  row : Option Nat := none
  column : Option Nat := none

def members : List (Member Draft) :=
  [.of "row" Reader.word (·.row) fun draft row => { draft with row },
    .of "column" Reader.word (·.column) fun draft column => { draft with column }]

def finish (draft : Draft) : Option Square := do
  return ⟨← draft.row, ← draft.column⟩

def reader : Reader Square := Reader.record members {} finish

end Square

namespace Cell

def toJson (cell : Cell) : Json :=
  .object
    [("row", .nat cell.row), ("column", .nat cell.column), ("key", .string cell.key),
      ("diagonals", .array [.int cell.diagonals.1, .int cell.diagonals.2])]

structure Draft where
  row : Option Nat := none
  column : Option Nat := none
  key : Option String := none
  diagonals : Option (Int × Int) := none

def members : List (Member Draft) :=
  [.of "row" Reader.word (·.row) fun draft row => { draft with row },
    .of "column" Reader.word (·.column) fun draft column => { draft with column },
    .of "key" Reader.string (·.key) fun draft key => { draft with key },
    .of "diagonals" (Reader.pair Reader.signedWord Reader.signedWord) (·.diagonals)
      fun draft diagonals => { draft with diagonals }]

def finish (draft : Draft) : Option Cell := do
  return ⟨← draft.row, ← draft.column, ← draft.key, ← draft.diagonals⟩

def reader : Reader Cell := Reader.record members {} finish

end Cell

namespace Position

def toJson (position : Position) : Json :=
  .object [("queens", .array (position.queens.map Cell.toJson))]

structure Draft where
  queens : Option (List Cell) := none

def members : List (Member Draft) :=
  [.of "queens" (Reader.list Cell.reader) (·.queens) fun draft queens => { draft with queens }]

def finish (draft : Draft) : Option Position := draft.queens.map Position.mk

def reader : Reader Position := Reader.record members {} finish

end Position

namespace Shade

def toJson (shade : Shade) : Json := .string shade.name

def reader : Reader Shade := Reader.oneOf all name

end Shade

namespace Occupancy

def toJson (occupancy : Occupancy) : Json := .string occupancy.name

def reader : Reader Occupancy := Reader.oneOf all name

end Occupancy

namespace Diagram

def Entry.toJson (entry : Entry) : Json :=
  .object
    [("square_id", entry.cell.toJson), ("color", entry.shade.toJson),
      ("content", entry.occupancy.toJson)]

structure Entry.Draft where
  cell : Option Cell := none
  shade : Option Shade := none
  occupancy : Option Occupancy := none

def Entry.members : List (Member Entry.Draft) :=
  [.of "square_id" Cell.reader (·.cell) fun draft cell => { draft with cell },
    .of "color" Shade.reader (·.shade) fun draft shade => { draft with shade },
    .of "content" Occupancy.reader (·.occupancy) fun draft occupancy => { draft with occupancy }]

def Entry.finish (draft : Entry.Draft) : Option Entry := do
  return ⟨← draft.cell, ← draft.shade, ← draft.occupancy⟩

def Entry.reader : Reader Entry := Reader.record Entry.members {} Entry.finish

def Row.toJson (row : Row) : Json :=
  .object [("index", .nat row.index), ("squares", .array (row.entries.map Entry.toJson))]

structure Row.Draft where
  index : Option Nat := none
  entries : Option (List Entry) := none

def Row.members : List (Member Row.Draft) :=
  [.of "index" Reader.word (·.index) fun draft index => { draft with index },
    .of "squares" (Reader.list Entry.reader) (·.entries)
      fun draft entries => { draft with entries }]

def Row.finish (draft : Row.Draft) : Option Row := do
  return ⟨← draft.index, ← draft.entries⟩

def Row.reader : Reader Row := Reader.record Row.members {} Row.finish

def toJson (diagram : Diagram) : Json :=
  .object [("rows", .array (diagram.rows.map Row.toJson))]

structure Draft where
  rows : Option (List Row) := none

def members : List (Member Draft) :=
  [.of "rows" (Reader.list Row.reader) (·.rows) fun draft rows => { draft with rows }]

def finish (draft : Draft) : Option Diagram := draft.rows.map Diagram.mk

def reader : Reader Diagram := Reader.record members {} finish

end Diagram

end QueensPuzzle
