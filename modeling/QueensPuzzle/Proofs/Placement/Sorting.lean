import QueensPuzzle.Proofs.Placement.OpenSquares
import QueensPuzzle.Solver

/-! # The order of the successors

Successors come from left to right. The depth-first search sorts them, those that leave most
squares open first, and as the sort is stable the columns keep their order wherever the numbers of
open squares are the same. Only one order of the successors has both properties, and the best-first
search sees the same placements.
-/

namespace QueensPuzzle.Placement

variable {size : Nat} {placement : Placement}

/-- The column of the queen that was placed last. -/
def lastColumn (placement : Placement) : Nat :=
  match placement.queens.getLast? with
  | none => 0
  | some queen => queen.column

@[simp] theorem lastColumn_place (placement : Placement) (square : Square) :
    (placement.place square).lastColumn = square.column := by
  simp [lastColumn]

/-- Placements that leave more squares open come first, and of those that leave equally many the
ones whose last queen is further left. -/
structure OpenFirst (children : List Placement) : Prop where
  openCount_le : children.Pairwise fun a b => b.openCount ≤ a.openCount
  column_lt : children.Pairwise fun a b => a.openCount = b.openCount → a.lastColumn < b.lastColumn

/-- The same placements can be in such an order in one way only. -/
theorem OpenFirst.eq_of_perm {children others : List Placement} (h : OpenFirst children)
    (hothers : OpenFirst others) (hperm : children.Perm others) : children = others := by
  have hchildren := h.openCount_le.and h.column_lt
  have hboth := hothers.openCount_le.and hothers.column_lt
  refine hperm.eq_of_pairwise ?_ hchildren hboth
  intro a b _ _ hab hba
  have hequal : a.openCount = b.openCount := Nat.le_antisymm hba.1 hab.1
  exact absurd (hab.2 hequal) (Nat.lt_asymm (hba.2 hequal.symm))

theorem Legal.column_lt_successors (h : Legal size placement) :
    placement.successors.Pairwise fun a b => a.lastColumn < b.lastColumn := by
  rw [h.successors_eq, List.pairwise_map]
  simp only [lastColumn_place]
  exact List.pairwise_lt_range.filter _

/-! ## Sorting -/

theorem sortedSuccessors_perm (placement : Placement) :
    placement.sortedSuccessors.Perm placement.successors := List.mergeSort_perm _ _

theorem openCount_le_trans (a b c : Placement) (hab : decide (b.openCount ≤ a.openCount) = true)
    (hbc : decide (c.openCount ≤ b.openCount) = true) :
    decide (c.openCount ≤ a.openCount) = true := by
  simp only [decide_eq_true_eq] at hab hbc ⊢
  exact Nat.le_trans hbc hab

theorem openCount_le_total (a b : Placement) :
    (decide (b.openCount ≤ a.openCount) || decide (a.openCount ≤ b.openCount)) = true := by
  simp only [Bool.or_eq_true, decide_eq_true_eq]
  exact Nat.le_total _ _

theorem openCount_le_sortedSuccessors (placement : Placement) :
    placement.sortedSuccessors.Pairwise fun a b => b.openCount ≤ a.openCount :=
  (List.pairwise_mergeSort openCount_le_trans openCount_le_total _).imp of_decide_eq_true

/-- Successors that leave equally many squares open stay in the order in which they are. -/
theorem filter_sortedSuccessors (placement : Placement) (count : Nat) :
    placement.sortedSuccessors.filter (·.openCount == count) =
      placement.successors.filter (·.openCount == count) := by
  let ties := placement.successors.filter (·.openCount == count)
  have hcount : ∀ child ∈ ties, (child.openCount == count) = true :=
    fun child hchild => (List.mem_filter.mp hchild).2
  have hties : ties.Pairwise fun a b => decide (b.openCount ≤ a.openCount) = true := by
    apply List.pairwise_of_forall_mem_list
    intro a ha b hb
    have hequal := (eq_of_beq (hcount b hb)).trans (eq_of_beq (hcount a ha)).symm
    exact decide_eq_true (Nat.le_of_eq hequal)
  have hkept : ties.Sublist placement.sortedSuccessors :=
    List.sublist_mergeSort openCount_le_trans openCount_le_total hties List.filter_sublist
  -- Sorting adds nothing to the ties, so they are all that is left of the sorted list.
  have hsublist := hkept.filter (·.openCount == count)
  rw [List.filter_eq_self.mpr hcount] at hsublist
  have hlength := (placement.sortedSuccessors_perm.filter (·.openCount == count)).length_eq
  exact (hsublist.eq_of_length hlength.symm).symm

theorem Legal.openFirst_sortedSuccessors (h : Legal size placement) :
    OpenFirst placement.sortedSuccessors := by
  refine ⟨placement.openCount_le_sortedSuccessors, ?_⟩
  rw [List.pairwise_iff_forall_sublist]
  intro a b hpair hequal
  have hties := hpair.filter (·.openCount == b.openCount)
  rw [filter_sortedSuccessors] at hties
  have hboth : [a, b].filter (·.openCount == b.openCount) = [a, b] := by simp [hequal]
  rw [hboth] at hties
  exact List.pairwise_iff_forall_sublist.mp h.column_lt_successors
    (hties.trans List.filter_sublist)

/-- In a placement whose queens were put on open squares, the depth-first search tries the
successors, all of them and each as often as it is one, those that leave more squares open first
and equally open ones from left to right. No other order of them is like that. The best-first
search comes from the placement to the same ones. -/
theorem sorted_successors_ordered (h : Legal size placement) :
    let tried := tree.branches placement
    tried.Perm placement.successors ∧
    tried.Pairwise (fun a b => b.openCount ≤ a.openCount) ∧
    tried.Pairwise (fun a b => a.openCount = b.openCount → a.lastColumn < b.lastColumn) ∧
    (∀ order, order.Perm placement.successors → OpenFirst order → order = tried) ∧
    ∀ child, child ∈ graph.neighbors placement ↔ child ∈ tried := by
  intro tried
  have hperm := placement.sortedSuccessors_perm
  have hsorted := h.openFirst_sortedSuccessors
  refine ⟨hperm, hsorted.openCount_le, hsorted.column_lt, ?_, ?_⟩
  · intro order horder hopen
    exact hopen.eq_of_perm hsorted (horder.trans hperm.symm)
  · intro child
    exact hperm.mem_iff.symm

/-- With a queen in the corner of six rows two pairs of successors leave equally many squares open,
and each pair is tried from left to right. -/
theorem corner_tried :
    let root := (empty 6).place ⟨0, 0⟩
    tree.branches root = [3, 5, 2, 4].map fun column => root.place ⟨1, column⟩ := by
  intro root
  have hlegal : Legal 6 root := .place .empty (mem_openSquares_empty.mpr (by decide))
  obtain ⟨_, _, _, hunique, _⟩ := sorted_successors_ordered hlegal
  have hsuccessors : root.successors = [2, 3, 4, 5].map fun column => root.place ⟨1, column⟩ := by
    cbv
  have hperm : [3, 5, 2, 4].Perm [2, 3, 4, 5] := by decide
  refine (hunique _ ?_ ⟨?_, ?_⟩).symm
  · rw [hsuccessors]
    exact hperm.map _
  · decide
  · decide

end QueensPuzzle.Placement
