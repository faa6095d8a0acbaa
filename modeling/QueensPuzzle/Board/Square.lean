import QueensPuzzle.Text.Inspect

/-! # Squares

A square is a row and a column, counted from the top left corner. Which squares
attack each other on a board is plain geometry. A square whose coordinates come
from outside may lie anywhere; its diagonal is then the one that its coordinates
have as signed 64-bit words, and squares conflict when such indices agree.
-/

namespace QueensPuzzle

structure Square where
  row : Nat
  column : Nat
  deriving DecidableEq, Hashable, Repr

namespace Square

/-- Whether the squares share a row, a column or a diagonal. A square attacks itself. -/
def attacks (a b : Square) : Bool :=
  a.row == b.row || a.column == b.column ||
    a.row + b.column == b.row + a.column || a.row + a.column == b.row + b.column

@[simp] theorem attacks_self (a : Square) : a.attacks a = true := by simp [attacks]

theorem attacks_of_row_eq {a b : Square} (h : a.row = b.row) : a.attacks b = true := by
  simp [attacks, h]

theorem attacks_of_column_eq {a b : Square} (h : a.column = b.column) : a.attacks b = true := by
  simp [attacks, h]

theorem attacks_comm (a b : Square) : a.attacks b = b.attacks a := by
  rw [Bool.eq_iff_iff]
  simp only [attacks, Bool.or_eq_true, beq_iff_eq]
  omega

theorem attacks_eq_false_iff (a b : Square) :
    a.attacks b = false ↔ a.row ≠ b.row ∧ a.column ≠ b.column ∧
      a.row + b.column ≠ b.row + a.column ∧ a.row + a.column ≠ b.row + b.column := by
  simp [attacks, and_assoc]

/-- A number as a signed 64-bit word, in two's complement. Small numbers stand for themselves. -/
def signedWord (n : Nat) : Int :=
  if n < UInt64.size / 2 then n else (n : Int).bmod UInt64.size

theorem signedWord_of_lt {n : Nat} (h : n < UInt64.size / 2) : signedWord n = n := if_pos h

theorem signedWord_eq_bmod (n : Nat) : signedWord n = (n : Int).bmod UInt64.size := by
  unfold signedWord
  split
  · exact (Int.bmod_eq_of_le (by omega) (by omega)).symm
  · rfl

/-- Index of the diagonal that falls to the right. -/
def diagonal (square : Square) : Int := signedWord square.row - signedWord square.column

/-- Index of the diagonal that rises to the right. -/
def antiDiagonal (square : Square) : Nat := square.row + square.column

def conflictsWith (a b : Square) : Bool :=
  a.row == b.row || a.column == b.column ||
    a.diagonal == b.diagonal || a.antiDiagonal == b.antiDiagonal

@[simp] theorem conflictsWith_self (a : Square) : a.conflictsWith a = true := by
  simp [conflictsWith]

theorem conflictsWith_comm (a b : Square) : a.conflictsWith b = b.conflictsWith a := by
  rw [Bool.eq_iff_iff]
  simp only [conflictsWith, Bool.or_eq_true, beq_iff_eq]
  omega

/-- On boards of at most `2 ^ 63` rows the conflicts are the attacks. -/
theorem conflictsWith_eq_attacks {n : Nat} (hn : n ≤ UInt64.size / 2) {a b : Square}
    (ha : a.row < n ∧ a.column < n) (hb : b.row < n ∧ b.column < n) :
    a.conflictsWith b = a.attacks b := by
  have hra := signedWord_of_lt (Nat.lt_of_lt_of_le ha.1 hn)
  have hca := signedWord_of_lt (Nat.lt_of_lt_of_le ha.2 hn)
  have hrb := signedWord_of_lt (Nat.lt_of_lt_of_le hb.1 hn)
  have hcb := signedWord_of_lt (Nat.lt_of_lt_of_le hb.2 hn)
  rw [Bool.eq_iff_iff]
  simp only [conflictsWith, attacks, diagonal, antiDiagonal, Bool.or_eq_true, beq_iff_eq,
    hra, hca, hrb, hcb]
  omega

/-- Whether no square conflicts with a later one. -/
def conflictFree : List Square → Bool
  | [] => true
  | square :: rest => rest.all (fun other => !square.conflictsWith other) && conflictFree rest

theorem conflictFree_iff (squares : List Square) :
    conflictFree squares = true ↔ squares.Pairwise fun a b => a.conflictsWith b = false := by
  induction squares with
  | nil => simp [conflictFree]
  | cons square rest ih => simp [conflictFree, ih]

def order (a b : Square) : Ordering :=
  (compare a.row b.row).then (compare a.column b.column)

def text (square : Square) : String :=
  "(" ++ toString square.row ++ ", " ++ toString square.column ++ ")"

def inspect (square : Square) : String :=
  Text.parts "Coordinates"
    [("row", toString square.row), ("column", toString square.column)]

end Square

end QueensPuzzle
