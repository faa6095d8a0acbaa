import Mathlib.Data.List.Nodup
import QueensPuzzle.Proofs.Board.Agreement

/-! # The squares that stay open

The open squares of a placement are kept by striking out, queen by queen, those that the new one
attacks. Whatever the rows of the queens and the order in which they came, what is left are the
squares of the board that none of them attacks, row by row and from left to right. The queens
alone settle it, so their order leaves no trace.
-/

namespace QueensPuzzle

namespace Square

theorem order_eq_lt_iff (a b : Square) :
    a.order b = .lt ↔ a.row < b.row ∨ a.row = b.row ∧ a.column < b.column := by
  rw [order, Ordering.then_eq_lt, Nat.compare_eq_lt, Nat.compare_eq_eq, Nat.compare_eq_lt]

/-- Strictly from row to row, and from left to right on each of them. -/
def Ordered (squares : List Square) : Prop := squares.Pairwise fun a b => a.order b = .lt

namespace Ordered

variable {first second : List Square}

theorem nodup (h : Ordered first) : first.Nodup := by
  refine h.imp ?_
  intro a b hab heq
  rw [order_eq_lt_iff, heq] at hab
  omega

/-- Such a list is known by what is in it. -/
theorem eq_of_mem_iff (hfirst : Ordered first) (hsecond : Ordered second)
    (hmem : ∀ square, square ∈ first ↔ square ∈ second) : first = second := by
  have hperm := (List.perm_ext_iff_of_nodup hfirst.nodup hsecond.nodup).mpr hmem
  refine hperm.eq_of_pairwise ?_ hfirst hsecond
  intro a b _ _ hab hba
  rw [order_eq_lt_iff] at hab hba
  omega

end Ordered

end Square

namespace Placement

variable {size : Nat} {placement other : Placement}

theorem mem_rowSquares {row : Nat} {square : Square} :
    square ∈ rowSquares size row ↔ square.row = row ∧ square.column < size := by
  obtain ⟨squareRow, column⟩ := square
  simp [rowSquares, and_comm, eq_comm]

theorem ordered_rowSquares (size row : Nat) : Square.Ordered (rowSquares size row) := by
  rw [Square.Ordered, rowSquares, List.pairwise_map]
  refine List.pairwise_lt_range.imp ?_
  intro a b hab
  exact (Square.order_eq_lt_iff _ _).mpr (.inr ⟨rfl, hab⟩)

theorem Legal.ordered_openSquares (h : Legal size placement) :
    Square.Ordered placement.openSquares.toList := by
  induction h with
  | empty =>
      simp only [Placement.empty, Square.Ordered, List.pairwise_flatMap]
      refine ⟨fun row _ => ordered_rowSquares size row, List.pairwise_lt_range.imp ?_⟩
      intro above below hrows a ha b hb
      rw [mem_rowSquares] at ha hb
      exact (Square.order_eq_lt_iff a b).mpr (.inl (by omega))
  | place _ _ ih =>
      rw [Placement.place, Array.toList_filter]
      exact ih.filter _

/-- The same queens leave the same squares open. -/
theorem Legal.openSquares_eq_of_perm (h : Legal size placement) (hother : Legal size other)
    (hqueens : other.queens.Perm placement.queens) :
    other.openSquares = placement.openSquares := by
  apply Array.toList_inj.mp
  refine hother.ordered_openSquares.eq_of_mem_iff h.ordered_openSquares ?_
  intro square
  simp only [Array.mem_toList_iff, hother.mem_openSquares, h.mem_openSquares, hqueens.mem_iff]

/-- Queens that stand may be placed in any order. -/
theorem Legal.extend_of_perm (h : Legal size placement) {order : List Square}
    (hqueens : order.Perm placement.queens) : Legal size ((Placement.empty size).extend order) := by
  have hempty : Legal size (Placement.empty size) := .empty
  exact hempty.extend (hempty.takes_iff.mpr (h.peaceful.perm hqueens.symm))

theorem Legal.successors_eq (h : Legal size placement) :
    placement.successors =
      ((List.range size).filter fun column =>
        (⟨placement.nextRow, column⟩ : Square) ∈ placement.openSquares).map
          fun column => placement.place ⟨placement.nextRow, column⟩ := by
  have hrow : placement.openSquares.toList.filter (·.row == placement.nextRow) =
      (rowSquares size placement.nextRow).filter (· ∈ placement.openSquares) := by
    refine Square.Ordered.eq_of_mem_iff (h.ordered_openSquares.filter _)
      ((ordered_rowSquares size placement.nextRow).filter _) ?_
    intro square
    simp only [List.mem_filter, Array.mem_toList_iff, beq_iff_eq, decide_eq_true_eq,
      mem_rowSquares]
    have hboard : square ∈ placement.openSquares → square.column < size :=
      fun hopen => (h.mem_openSquares.mp hopen).1.2
    tauto
  rw [successors, hrow, rowSquares, List.filter_map, List.map_map]
  rfl

/-- In a placement whose queens were put on open squares, in whatever rows and order, the open
squares are those of the board that no queen attacks, each once, from row to row and from left to
right; and the queens are on the board and leave each other in peace. On boards of at most `2 ^ 63`
rows attacks are conflicts of the indices. Whoever places the same queens in another order may do
so, and is left with the same squares. The successors are one placement for each open square of the
next row, from left to right. -/
theorem open_squares_exact (h : Legal size placement) :
    (∀ square, square ∈ placement.openSquares ↔ (square.row < size ∧ square.column < size) ∧
      ∀ queen ∈ placement.queens, queen.attacks square = false) ∧
    placement.openSquares.toList.Pairwise (fun a b => a.order b = .lt) ∧
    ((∀ queen ∈ placement.queens, queen.row < size ∧ queen.column < size) ∧
      placement.queens.Pairwise fun a b => a.attacks b = false) ∧
    (size ≤ UInt64.size / 2 →
      Square.conflictFree placement.queens = true ∧
      ∀ square : Square, square.row < size ∧ square.column < size →
        ∀ queen ∈ placement.queens, queen.conflictsWith square = queen.attacks square) ∧
    (∀ order, order.Perm placement.queens →
      Legal size ((empty size).extend order) ∧
      ((empty size).extend order).openSquares = placement.openSquares) ∧
    (∀ other, Legal size other → other.queens.Perm placement.queens →
      other.openSquares = placement.openSquares) ∧
    placement.successors =
      ((List.range size).filter fun column =>
        (⟨placement.nextRow, column⟩ : Square) ∈ placement.openSquares).map
          fun column => placement.place ⟨placement.nextRow, column⟩ := by
  have hpeace := h.peaceful
  refine ⟨fun _ => h.mem_openSquares, h.ordered_openSquares, ⟨hpeace.on_board, hpeace.pairwise⟩,
    ?_, ?_, fun other hother => h.openSquares_eq_of_perm hother, h.successors_eq⟩
  · intro hsize
    refine ⟨hpeace.conflictFree hsize, ?_⟩
    intro square hsquare queen hqueen
    exact Square.conflictsWith_eq_attacks hsize (hpeace.on_board queen hqueen) hsquare
  · intro order horder
    have hlegal := h.extend_of_perm horder
    have hqueens : ((empty size).extend order).queens.Perm placement.queens := by
      rw [queens_extend]
      exact horder
    exact ⟨hlegal, h.openSquares_eq_of_perm hlegal hqueens⟩

/-- The queens on the second and fourth row may come from below, and then the third row is next;
from above they leave the same squares open. -/
theorem two_queens_open :
    let upward := ((empty 5).place ⟨3, 0⟩).place ⟨1, 1⟩
    let downward := ((empty 5).place ⟨1, 1⟩).place ⟨3, 0⟩
    upward.openSquares = downward.openSquares ∧
      (⟨4, 2⟩ : Square) ∈ downward.openSquares ∧
      upward.successors = [upward.place ⟨2, 3⟩, upward.place ⟨2, 4⟩] ∧
      downward.successors = [downward.place ⟨4, 2⟩, downward.place ⟨4, 3⟩] := by
  intro upward downward
  have hlower : Legal 5 ((empty 5).place ⟨3, 0⟩) :=
    .place .empty (mem_openSquares_empty.mpr (by decide))
  have hupper : Legal 5 ((empty 5).place ⟨1, 1⟩) :=
    .place .empty (mem_openSquares_empty.mpr (by decide))
  have hupward : Legal 5 upward := hlower.place (hlower.mem_openSquares.mpr (by decide))
  have hdownward : Legal 5 downward := hupper.place (hupper.mem_openSquares.mpr (by decide))
  obtain ⟨hopenUp, _, _, _, _, _, hup⟩ := open_squares_exact hupward
  obtain ⟨hopenDown, _, _, _, _, hsame, hdown⟩ := open_squares_exact hdownward
  refine ⟨hsame upward hupward (.swap _ _ _), (hopenDown _).mpr (by decide), ?_, ?_⟩
  · rw [hup]
    simp only [hopenUp]
    rfl
  · rw [hdown]
    simp only [hopenDown]
    rfl

end Placement

end QueensPuzzle
