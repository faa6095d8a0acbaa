import QueensPuzzle.Board.Square
import QueensPuzzle.Text.Inspect

/-! # Placements

Queens that stand on a board, together with the squares that are still open to
another queen. Placing a queen makes a new placement.
-/

namespace QueensPuzzle

structure Placement where
  size : Nat
  /-- In the order in which they were placed. -/
  queens : List Square
  /-- The squares that no queen attacks, row by row. -/
  openSquares : Array Square
  deriving DecidableEq, Repr

namespace Placement

/-- The squares of a row, from left to right. -/
def rowSquares (size row : Nat) : List Square := (List.range size).map (⟨row, ·⟩)

/-- The board without queens; every square is open. -/
def empty (size : Nat) : Placement :=
  ⟨size, [], ((List.range size).flatMap (rowSquares size)).toArray⟩

/-- The placement with a queen more. The square is meant to be an open one. -/
def place (placement : Placement) (square : Square) : Placement :=
  { placement with
    queens := placement.queens ++ [square]
    openSquares := placement.openSquares.filter fun other => !square.attacks other }

@[simp] theorem size_place (placement : Placement) (square : Square) :
    (placement.place square).size = placement.size := rfl

@[simp] theorem queens_place (placement : Placement) (square : Square) :
    (placement.place square).queens = placement.queens ++ [square] := rfl

theorem mem_openSquares_place {placement : Placement} {square other : Square} :
    other ∈ (placement.place square).openSquares ↔
      other ∈ placement.openSquares ∧ square.attacks other = false := by
  simp [place]

theorem mem_openSquares_empty {size : Nat} {square : Square} :
    square ∈ (empty size).openSquares ↔ square.row < size ∧ square.column < size := by
  obtain ⟨row, column⟩ := square
  simp [empty, rowSquares]

def queenCount (placement : Placement) : Nat := placement.queens.length

def openCount (placement : Placement) : Nat := placement.openSquares.size

/-- The row below the queen that was placed last. -/
def nextRow (placement : Placement) : Nat :=
  match placement.queens.getLast? with
  | none => 0
  | some queen => queen.row + 1

/-- One placement for each open square of the next row, from left to right. -/
def successors (placement : Placement) : List Placement :=
  (placement.openSquares.toList.filter (·.row == placement.nextRow)).map placement.place

/-- The successors, those that leave most squares open first. Successors that leave
equally many stay in the order of their columns. -/
def sortedSuccessors (placement : Placement) : List Placement :=
  placement.successors.mergeSort fun a b => b.openCount ≤ a.openCount

def isComplete (placement : Placement) : Bool := placement.queenCount == placement.size

def inspect (placement : Placement) : String :=
  Text.parts "GraphNode"
    [("board_size", toString placement.size),
      ("placed", Text.list (placement.queens.map (·.inspect))),
      ("available", Text.list (placement.openSquares.toList.map (·.inspect)))]

end Placement

end QueensPuzzle
