import QueensPuzzle.Proofs.Placement.OpenSquares
import QueensPuzzle.Proofs.Placement.Walks
import QueensPuzzle.Proofs.Search.Ending

/-! # No placement comes twice

What lies below a placement begins with its queens, and two placements that a search tries one
beside the other have their last queens on different squares. So the placements below a root,
read in preorder, have different queens, and a walk is at its end before it has taken as many
advances as there are placements to reach.
-/

namespace QueensPuzzle.Placement

open Search

variable {size depth : Nat} {root placement : Placement}

theorem Below.isPrefix (h : Below root placement) : root.queens <+: placement.queens := by
  induction h with
  | refl => exact List.prefix_rfl
  | tail _ hnext ih =>
      obtain ⟨square, _, _, rfl⟩ := mem_successors.mp hnext
      exact ih.trans (List.prefix_append _ [square])

theorem Legal.nodup_queens_successors (h : Legal size root) :
    (root.successors.map (·.queens)).Nodup := by
  rw [successors, List.map_map]
  refine (h.ordered_openSquares.nodup.filter _).map ?_
  intro a b hab
  simpa using hab

theorem Legal.nodup_queens_branches (h : Legal size root) :
    ((tree.branches root).map (·.queens)).Nodup := by
  have hperm : (tree.branches root).Perm root.successors := List.mergeSort_perm _ _
  rw [(hperm.map _).nodup_iff]
  exact h.nodup_queens_successors

theorem length_queens_of_branch (h : placement ∈ tree.branches root) :
    placement.queens.length = root.queens.length + 1 := by
  obtain ⟨square, _, _, rfl⟩ := mem_successors.mp (mem_sortedSuccessors.mp h)
  simp

theorem isPrefix_of_mem_preorder (h : placement ∈ tree.preorder depth root) :
    root.queens <+: placement.queens :=
  Below.isPrefix (tree_below_iff.mp (SearchTree.below_of_mem_preorder h))

theorem Legal.nodup_preorder (h : Legal size root) (depth : Nat) :
    ((tree.preorder depth root).map (·.queens)).Nodup := by
  induction depth generalizing root with
  | zero => exact List.nodup_nil
  | succ depth ih =>
      rw [SearchTree.preorder, List.map_cons, List.nodup_cons, List.map_flatMap,
        List.nodup_flatMap]
      refine ⟨?_, ?_, ?_⟩
      · -- Below the root there are more queens.
        intro hmem
        simp only [List.mem_flatMap, List.mem_map] at hmem
        obtain ⟨child, hchild, placement, hplacement, hqueens⟩ := hmem
        have hle := (isPrefix_of_mem_preorder hplacement).length_le
        rw [hqueens, length_queens_of_branch hchild] at hle
        omega
      · intro child hchild
        exact ih (h.of_mem_successors (mem_sortedSuccessors.mp hchild))
      · -- Queens below two branches begin with the queens of either.
        have hdistinct := h.nodup_queens_branches
        rw [List.Nodup, List.pairwise_map] at hdistinct
        refine hdistinct.imp_of_mem ?_
        intro a b ha hb hab
        simp only [Function.onFun, List.disjoint_left, List.mem_map]
        rintro _ ⟨placement, hplacement, rfl⟩ ⟨other, hother, hqueens⟩
        have hfirst := isPrefix_of_mem_preorder hplacement
        have hsecond := isPrefix_of_mem_preorder hother
        rw [hqueens] at hsecond
        have hlength : a.queens.length = b.queens.length := by
          rw [length_queens_of_branch ha, length_queens_of_branch hb]
        have hbegins := List.prefix_of_prefix_length_le hfirst hsecond (Nat.le_of_eq hlength)
        exact hab (hbegins.eq_of_length hlength)

theorem Legal.length_preorder_lt (h : Legal size root) (depth : Nat) :
    (tree.preorder depth root).length < root.reach := by
  obtain ⟨hfinite, hreach⟩ := h.ncard_reachableKeys
  have hle := CostGraph.length_le_ncard hfinite (h.nodup_preorder depth) fun placement hmem =>
    tree_below_iff.mp (SearchTree.below_of_mem_preorder hmem)
  omega

/-- The walk from a legal root comes to its end. -/
theorem Legal.exists_endsAfter (h : Legal size root) :
    ∃ count < root.reach, tree.EndsAfter root count := by
  obtain ⟨count, hcount, hends⟩ := h.within_height.exists_endsAfter
  exact ⟨count, Nat.lt_of_le_of_lt hcount (h.length_preorder_lt root.height), hends⟩

theorem exists_endsAfter_empty (size : Nat) :
    ∃ count < (empty size).reach, tree.EndsAfter (empty size) count :=
  Legal.exists_endsAfter .empty

theorem arises_run (size : Nat) :
    let last := (empty size).walk.run tree (empty size).reach
    Arises size last ∧ last.isFinal = true := by
  intro last
  obtain ⟨count, hcount, hends⟩ := exists_endsAfter_empty size
  obtain ⟨hlast, hfinal⟩ := hends.walkAfter_run (Nat.le_of_lt hcount)
  exact ⟨⟨count, hlast⟩, hfinal⟩

end QueensPuzzle.Placement
