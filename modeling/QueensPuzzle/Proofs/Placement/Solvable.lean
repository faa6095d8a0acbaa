import Mathlib.Data.List.Permutation
import QueensPuzzle.Proofs.Placement.Branches

/-! # Which boards can be solved

On a board with an even number of rows two flights of knight's moves, one in each half, keep
the queens apart; where the plain flights meet on a diagonal, flights that begin half a board
further to the right do not. Both leave the falling diagonal of the corner free, so that one more
queen at its end makes an odd board. What is left are two rows and three rows, which no search
can fill.
-/

namespace QueensPuzzle

/-- Whether queens on the first `rows` rows, each in the column given for its row, leave each
other in peace. -/
structure Settles (columnOf : Nat → Nat) (rows : Nat) : Prop where
  column_lt : ∀ row < rows, columnOf row < rows
  apart : ∀ upper lower, upper < lower → lower < rows →
    Square.attacks ⟨upper, columnOf upper⟩ ⟨lower, columnOf lower⟩ = false

namespace Settles

variable {columnOf : Nat → Nat} {rows : Nat}

theorem solvable (h : Settles columnOf rows) : Solvable rows := by
  refine ⟨(List.range rows).map fun row => ⟨row, columnOf row⟩, by simp, ?_, ?_⟩
  · intro queen hqueen
    obtain ⟨row, hrow, rfl⟩ := List.mem_map.mp hqueen
    have hlt := List.mem_range.mp hrow
    exact ⟨hlt, h.column_lt row hlt⟩
  · rw [List.pairwise_map]
    refine List.pairwise_lt_range.imp_of_mem ?_
    intro upper lower _ hlower hlt
    exact h.apart upper lower hlt (List.mem_range.mp hlower)

/-- A queen in the corner attacks along the falling diagonal only. -/
theorem corner (h : Settles columnOf rows) (hfree : ∀ row < rows, columnOf row ≠ row) :
    Settles (fun row => if row < rows then columnOf row else rows) (rows + 1) where
  column_lt row hrow := by
    have hlt := h.column_lt row
    split <;> omega
  apart upper lower hlt hlower := by
    have hupper : upper < rows := by omega
    simp only [hupper, if_true]
    split
    · rename_i hlower
      exact h.apart upper lower hlt hlower
    · have hcolumn := h.column_lt upper hupper
      have hoff := hfree upper hupper
      rw [Square.attacks_eq_false_iff]
      simp only
      omega

end Settles

/-! ## Flights of knight's moves -/

/-- The upper half of the board takes the odd columns, the lower half the even ones. -/
def flight (half row : Nat) : Nat := if row < half then 2 * row + 1 else 2 * (row - half)

/-- A flight that begins half a board further to the right and goes on at the left edge. -/
def shiftedFlight (half row : Nat) : Nat :=
  if 2 * row ≤ half then 2 * row + half - 1 else 2 * row - half - 1

/-- The shifted flight in the upper half of the board, turned round its center for the lower. -/
def turnedFlight (half row : Nat) : Nat :=
  if row < half then shiftedFlight half row
  else 2 * half - 1 - shiftedFlight half (2 * half - 1 - row)

theorem settles_flight {half : Nat} (h : half % 3 ≠ 1) : Settles (flight half) (2 * half) where
  column_lt row hrow := by
    unfold flight
    split <;> omega
  apart upper lower hlt hlower := by
    rw [Square.attacks_eq_false_iff]
    simp only [flight]
    split <;> split <;> omega

theorem settles_turnedFlight {half : Nat} (h : half % 3 = 1) (htwo : 2 ≤ half) :
    Settles (turnedFlight half) (2 * half) where
  column_lt row hrow := by
    unfold turnedFlight shiftedFlight
    split <;> split <;> omega
  apart upper lower hlt hlower := by
    rw [Square.attacks_eq_false_iff]
    simp only [turnedFlight, shiftedFlight]
    split <;> split <;> split <;> split <;> omega

theorem flight_ne (half row : Nat) (hrow : row < 2 * half) : flight half row ≠ row := by
  unfold flight
  split <;> omega

theorem turnedFlight_ne {half : Nat} (htwo : 2 ≤ half) (row : Nat) (hrow : row < 2 * half) :
    turnedFlight half row ≠ row := by
  unfold turnedFlight shiftedFlight
  split <;> split <;> omega

theorem exists_settles {half : Nat} (h : half ≠ 1) :
    ∃ columnOf, Settles columnOf (2 * half) ∧ ∀ row < 2 * half, columnOf row ≠ row := by
  by_cases hthird : half % 3 = 1
  · have htwo : 2 ≤ half := by omega
    exact ⟨turnedFlight half, settles_turnedFlight hthird htwo, turnedFlight_ne htwo⟩
  · exact ⟨flight half, settles_flight hthird, flight_ne half⟩

/-! ## All boards -/

theorem not_solvable_two : ¬Solvable 2 :=
  (Placement.solve_queens_eq_none_iff .backtracking 2).mp (by cbv)

theorem not_solvable_three : ¬Solvable 3 :=
  (Placement.solve_queens_eq_none_iff .backtracking 3).mp (by cbv)

theorem solvable_iff (size : Nat) : Solvable size ↔ ¬(size = 2 ∨ size = 3) := by
  constructor
  · rintro h (rfl | rfl)
    · exact not_solvable_two h
    · exact not_solvable_three h
  · intro h
    obtain ⟨columnOf, hsettles, hfree⟩ := exists_settles (show size / 2 ≠ 1 by omega)
    rcases Nat.even_or_odd' size with ⟨half, rfl | rfl⟩
    · rw [Nat.mul_div_cancel_left half (by decide)] at hsettles
      exact hsettles.solvable
    · rw [show (2 * half + 1) / 2 = half by omega] at hsettles hfree
      exact (hsettles.corner hfree).solvable

namespace Placement

theorem queens_solve_eq_none_iff (engine : Engine) (size : Nat) :
    (engine.solve size).queens = none ↔ size = 2 ∨ size = 3 := by
  rw [solve_queens_eq_none_iff]
  exact not_iff_comm.mp (solvable_iff size).symm

/-- Whatever its size, a board has a solution unless it has two rows or three. Both engines find
one, which is the empty one on the empty board, and the search that is taken step by step ends
with one. -/
theorem solvable_unless_two_or_three (size : Nat) :
    (∀ engine : Engine,
      ((engine.solve size).queens = none ↔ size = 2 ∨ size = 3) ∧
      (engine.solve 0).queens = some [] ∧
      ∀ queens, (engine.solve size).queens = some queens →
        queens.length = size ∧ Peaceful size queens) ∧
    let last := (empty size).walk.run tree (empty size).reach
    Arises size last ∧ last.isFinal = true ∧ (last.candidate = none ↔ size = 2 ∨ size = 3) := by
  constructor
  · intro engine
    refine ⟨queens_solve_eq_none_iff engine size, ?_, fun queens => peaceful_of_solve⟩
    cases hqueens : (engine.solve 0).queens with
    | none =>
        have hsizes := (queens_solve_eq_none_iff engine 0).mp hqueens
        omega
    | some queens => rw [List.length_eq_zero_iff.mp (peaceful_of_solve hqueens).1]
  · intro last
    obtain ⟨harises, hfinal⟩ := arises_run size
    refine ⟨harises, hfinal, ?_⟩
    rw [harises.candidate_eq_none_iff hfinal]
    exact not_iff_comm.mp (solvable_iff size).symm

/-- No search has to be run to see that a large board has a solution. -/
theorem solvable_thousand (engine : Engine) :
    ∃ queens, (engine.solve 1000).queens = some queens ∧
      queens.length = 1000 ∧ Peaceful 1000 queens := by
  obtain ⟨hnone, _, hsome⟩ := (solvable_unless_two_or_three 1000).1 engine
  cases hqueens : (engine.solve 1000).queens with
  | none => exact absurd (hnone.mp hqueens) (by decide)
  | some queens => exact ⟨queens, rfl, hsome queens hqueens⟩

end Placement

end QueensPuzzle
