import QueensPuzzle.Board.Cell

/-! # Diagrams

A picture of a board, row by row: every cell with its shade and with what is on it.
-/

namespace QueensPuzzle

inductive Shade where
  | black
  | white
  deriving DecidableEq, Repr

namespace Shade

/-- The shade of a square. The square in the corner is white. -/
def of (row column : Nat) : Shade := if (column + row % 2) % 2 == 1 then .black else .white

def all : List Shade := [.black, .white]

def name : Shade → String
  | .black => "black"
  | .white => "white"

end Shade

inductive Occupancy where
  | empty
  | queen
  /-- Attacked by a queen. -/
  | blocked
  deriving DecidableEq, Repr

namespace Occupancy

def all : List Occupancy := [.empty, .queen, .blocked]

def name : Occupancy → String
  | .empty => "Empty"
  | .queen => "Queen"
  | .blocked => "Blocked"

def plainName : Occupancy → String
  | .empty => "empty"
  | .queen => "queen"
  | .blocked => "blocked"

def mark : Occupancy → String
  | .empty => "x"
  | .queen => "Q"
  | .blocked => "."

end Occupancy

structure Diagram.Entry where
  cell : Cell
  shade : Shade
  occupancy : Occupancy
  deriving DecidableEq, Repr

structure Diagram.Row where
  index : Nat
  entries : List Diagram.Entry
  deriving DecidableEq, Repr

structure Diagram where
  rows : List Diagram.Row
  deriving DecidableEq, Repr

namespace Diagram

def Row.text (row : Row) : String :=
  " ".intercalate (row.entries.map (·.occupancy.mark)) ++ "\n"

/-- One line for each row, with blanks between the marks. -/
def text (diagram : Diagram) : String := String.join (diagram.rows.map Row.text)

end Diagram

end QueensPuzzle
