import Std.Data.HashMap
import QueensPuzzle.Board.Square

/-! # Cells

A cell is a square as part of a board of some size. It carries the text by which
it is known and the indices of its two diagonals, packed so that on a board no
falling diagonal has the index of a rising one. A cache hands out the cells of one
size, and makes each of them once.
-/

namespace QueensPuzzle

structure Cell where
  row : Nat
  column : Nat
  /-- The row and the column with a slash between them. -/
  key : String
  /-- Index of the falling diagonal, and index of the rising one. -/
  diagonals : Int × Int
  deriving DecidableEq, Repr

namespace Cell

def of (row column size : Nat) : Cell where
  row := row
  column := column
  key := toString row ++ "/" ++ toString column
  diagonals :=
    (Square.signedWord row - Square.signedWord column,
      Square.signedWord row + Square.signedWord column + Square.signedWord size)

def square (cell : Cell) : Square := ⟨cell.row, cell.column⟩

/-- Whether any index of the one is an index of the other. -/
def sharesDiagonal (a b : Cell) : Bool :=
  a.diagonals.1 == b.diagonals.1 || a.diagonals.1 == b.diagonals.2 ||
    a.diagonals.2 == b.diagonals.1 || a.diagonals.2 == b.diagonals.2

end Cell

/-- The cells of boards of one size that were asked for so far. -/
structure CellCache where
  size : Nat
  cells : Std.HashMap Square Cell

namespace CellCache

def new (size : Nat) : CellCache := ⟨size, ∅⟩

/-- The cell at a row and a column, which is kept for the next time. -/
def get (row column : Nat) : StateM CellCache Cell := fun ⟨size, cells⟩ =>
  match cells[(⟨row, column⟩ : Square)]? with
  | some cell => (cell, ⟨size, cells⟩)
  | none =>
      let cell := Cell.of row column size
      (cell, ⟨size, cells.insert ⟨row, column⟩ cell⟩)

def count (cache : CellCache) : Nat := cache.cells.size

def isEmpty (cache : CellCache) : Bool := cache.cells.isEmpty

end CellCache

end QueensPuzzle
