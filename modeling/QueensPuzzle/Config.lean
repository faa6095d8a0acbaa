import QueensPuzzle.Engine
import QueensPuzzle.Json.Reader
import QueensPuzzle.Json.Value

/-! # Settings

The side of a board and the settings of a solver. The front ends offer boards of
1 to 24 rows, and no other side can be written down.
-/

namespace QueensPuzzle

/-- The largest board that the front ends offer. -/
def maxBoardSize : Nat := 24

structure BoardSize where
  rows : Nat
  one_le_rows : 1 ≤ rows := by decide
  rows_le_max : rows ≤ maxBoardSize := by decide
  deriving DecidableEq, Repr

namespace BoardSize

instance : Inhabited BoardSize := ⟨{ rows := 8 }⟩

def ofNat (n : Nat) : Except Fault BoardSize :=
  if h : 1 ≤ n ∧ n ≤ maxBoardSize then .ok ⟨n, h.1, h.2⟩ else .error (.invalidBoardSize n)

/-- Exactly the sizes from 1 to the largest are accepted. -/
theorem ofNat_eq_ok_iff (n : Nat) (size : BoardSize) :
    ofNat n = .ok size ↔ size.rows = n := by
  unfold ofNat
  split
  · rename_i h
    constructor
    · rintro ⟨⟩; rfl
    · rintro rfl; rfl
  · rename_i h
    constructor
    · nofun
    · rintro rfl; exact absurd ⟨size.one_le_rows, size.rows_le_max⟩ h

/-- One row more, up to the largest board. -/
def grow (size : BoardSize) : BoardSize :=
  ⟨min (size.rows + 1) maxBoardSize, by have := size.one_le_rows; simp only [maxBoardSize]; omega,
    Nat.min_le_right _ _⟩

/-- One row less, down to a single square. -/
def shrink (size : BoardSize) : BoardSize :=
  ⟨max (size.rows - 1) 1, Nat.le_max_right _ _,
    by have := size.rows_le_max; simp only [maxBoardSize] at this ⊢; omega⟩

def text (size : BoardSize) : String := toString size.rows

def toJson (size : BoardSize) : Json := .nat size.rows

def reader : Json.Reader BoardSize := Json.Reader.word.accept ofNat

end BoardSize

namespace Engine

def toJson (engine : Engine) : Json := .string engine.name

def reader : Json.Reader Engine := Json.Reader.oneOf all name

end Engine

structure Config where
  engine : Engine
  boardSize : BoardSize
  deriving DecidableEq, Repr, Inhabited

namespace Config

def toJson (config : Config) : Json :=
  .object [("engine", config.engine.toJson), ("board_size", config.boardSize.toJson)]

structure Draft where
  engine : Option Engine := none
  boardSize : Option BoardSize := none

def members : List (Json.Reader.Member Draft) :=
  [.of "engine" Engine.reader (·.engine) fun draft engine => { draft with engine },
    .of "board_size" BoardSize.reader (·.boardSize) fun draft boardSize => { draft with boardSize }]

def finish (draft : Draft) : Option Config := do
  return ⟨← draft.engine, ← draft.boardSize⟩

def reader : Json.Reader Config := Json.Reader.record members {} finish

end Config

end QueensPuzzle
