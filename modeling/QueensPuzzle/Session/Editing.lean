import QueensPuzzle.Board.Position
import QueensPuzzle.Config

/-! # Editing sessions

A board on which somebody places queens by hand.
-/

namespace QueensPuzzle.Session

structure Editing where
  position : Position
  cells : CellCache

namespace Editing

def new (size : Nat) : Editing := ⟨.empty, CellCache.new size⟩

def ofSize (size : Nat) : Except Fault Editing := (BoardSize.ofNat size).map (new ·.rows)

def size (session : Editing) : Nat := session.cells.size

/-- Toggles a queen and gives what was on the square before. A square off the board
counts as blocked. -/
def toggle (row column : Nat) (session : Editing) : Occupancy × Editing :=
  if row < session.size ∧ column < session.size then
    let (cell, cells) := CellCache.get row column session.cells
    let (before, position) := session.position.toggle cell
    (before, ⟨position, cells⟩)
  else (.blocked, session)

def queenCount (session : Editing) : Nat := session.position.queenCount

def isSolved (session : Editing) : Bool := session.queenCount == session.size

def clear (session : Editing) : Editing := { session with position := .empty }

def board (session : Editing) : Diagram × Editing :=
  let (diagram, cells) := session.position.describe session.cells
  (diagram, { session with cells })

end Editing

end QueensPuzzle.Session
