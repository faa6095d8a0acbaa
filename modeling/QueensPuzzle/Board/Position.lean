import QueensPuzzle.Board.Diagram

/-! # Positions

Queens on a board that is edited by hand. An empty cell takes a queen, a queen can
be lifted off, and a cell that a queen attacks stays as it is.
-/

namespace QueensPuzzle

structure Position where
  queens : List Cell
  deriving DecidableEq, Repr

namespace Position

def empty : Position := ⟨[]⟩

def ofSquares (squares : List Square) (size : Nat) : Position :=
  ⟨squares.map fun square => Cell.of square.row square.column size⟩

def squares (position : Position) : List Square := position.queens.map (·.square)

def queenCount (position : Position) : Nat := position.queens.length

/-- Whether a queen is in the row, in the column or on a diagonal of the cell. -/
def isBlocked (position : Position) (cell : Cell) : Bool :=
  position.queens.any fun queen =>
    queen.column == cell.column || queen.row == cell.row || queen.sharesDiagonal cell

/-- What the cell shows. A queen on the cell itself counts first. -/
def occupancy (position : Position) (cell : Cell) : Occupancy :=
  if position.queens.any (· == cell) then .queen
  else if position.isBlocked cell then .blocked
  else .empty

/-- Puts a queen on an empty cell or takes it off again, and leaves a blocked cell alone.
Gives what was on the cell before. -/
def toggle (position : Position) (cell : Cell) : Occupancy × Position :=
  let before := position.occupancy cell
  (before,
    match before with
    | .empty => ⟨position.queens ++ [cell]⟩
    | .queen => ⟨position.queens.filter (· != cell)⟩
    | .blocked => position)

@[simp] theorem toggle_fst (position : Position) (cell : Cell) :
    (position.toggle cell).1 = position.occupancy cell := rfl

theorem occupancy_eq_queen_iff (position : Position) (cell : Cell) :
    position.occupancy cell = .queen ↔ cell ∈ position.queens := by
  unfold occupancy
  split
  · simp_all
  · split <;> simp_all

/-- The picture of the position on a board of the cache's size. -/
def describe (position : Position) : StateM CellCache Diagram := do
  let size := (← get).size
  let rows ← (List.range size).mapM fun row => do
    let entries ← (List.range size).mapM fun column => do
      let cell ← CellCache.get row column
      return { cell := cell, shade := .of row column, occupancy := position.occupancy cell }
    return { index := row, entries := entries }
  return ⟨rows⟩

def diagram (position : Position) (size : Nat) : Diagram :=
  (position.describe (CellCache.new size)).1

end Position

end QueensPuzzle
