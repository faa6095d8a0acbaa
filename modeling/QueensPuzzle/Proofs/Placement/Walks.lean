import QueensPuzzle.Proofs.Placement.Engines
import QueensPuzzle.Proofs.Search.Preorder

/-! # Walks from the empty board

Whatever a walk from the empty board is at, its queens leave each other in peace. It ends
at a full board, or with nothing where no full board exists.
-/

namespace QueensPuzzle

open Search

/-- Whether the board takes one queen for each row, none of which attacks another. -/
def Solvable (size : Nat) : Prop :=
  ∃ queens : List Square, queens.length = size ∧ Peaceful size queens

namespace Placement

variable {size : Nat} {walk next : Walk Placement} {placement : Placement}

theorem peaceful_of_solve {engine : Engine} {queens : List Square}
    (h : (engine.solve size).queens = some queens) :
    queens.length = size ∧ Peaceful size queens := by
  have hempty : Legal size (empty size) := .empty
  cases engine with
  | astar =>
      change (empty size).explore.path.getLast?.map (·.queens) = some queens at h
      obtain ⟨last, hlast, rfl⟩ := Option.map_eq_some_iff.mp h
      have hcompletes := hempty.completes_of_explore hlast
      exact ⟨hcompletes.length_eq, hcompletes.peaceful⟩
  | backtracking =>
      change (empty size).resolve.map (·.queens) = some queens at h
      obtain ⟨last, hlast, rfl⟩ := Option.map_eq_some_iff.mp h
      have hcompletes := hempty.completes_of_resolve hlast
      exact ⟨hcompletes.length_eq, hcompletes.peaceful⟩

/-- The walks that advances from the empty board lead to. -/
def Arises (size : Nat) (walk : Walk Placement) : Prop :=
  ∃ count, tree.walkAfter (empty size) count = .ok walk

theorem arises_walk (size : Nat) : Arises size (empty size).walk := ⟨0, rfl⟩

namespace Arises

theorem advance (h : Arises size walk) (hadvance : walk.advance tree = .ok next) :
    Arises size next := by
  obtain ⟨count, hcount⟩ := h
  exact ⟨count + 1, SearchTree.walkAfter_succ_eq_ok_iff.mpr ⟨walk, hcount, hadvance⟩⟩

theorem isFinal_eq (h : Arises size walk) :
    walk.isFinal = walk.candidate.all Placement.isComplete := by
  obtain ⟨count, hcount⟩ := h
  exact SearchTree.isFinal_walkAfter hcount

theorem exists_candidate (h : Arises size walk) (hfinal : walk.isFinal = false) :
    ∃ placement, walk.candidate = some placement := by
  rw [h.isFinal_eq] at hfinal
  cases hcandidate : walk.candidate with
  | none => simp [hcandidate] at hfinal
  | some placement => exact ⟨placement, rfl⟩

theorem legal (h : Arises size walk) (hcandidate : walk.candidate = some placement) :
    Legal size placement := by
  obtain ⟨count, hcount⟩ := h
  have hbelow := SearchTree.below_of_candidate hcount hcandidate
  exact Legal.empty.of_below (tree_below_iff.mp hbelow)

theorem length_eq (h : Arises size walk) (hfinal : walk.isFinal = true)
    (hcandidate : walk.candidate = some placement) : placement.queens.length = size := by
  have hcomplete : placement.isComplete = true := by
    rw [h.isFinal_eq, hcandidate] at hfinal
    exact hfinal
  rw [← (h.legal hcandidate).size_eq]
  exact eq_of_beq hcomplete

theorem not_solvable (h : Arises size walk) (hnone : walk.candidate = none) : ¬Solvable size := by
  obtain ⟨count, hcount⟩ := h
  intro hsolvable
  have hempty : Legal size (empty size) := .empty
  obtain ⟨last, hbelow, hcomplete⟩ := hempty.exists_complete_below_iff.mpr
    ⟨isGapless_empty size, isCompletable_empty.mpr hsolvable⟩
  have hnot : last.isComplete = false :=
    SearchTree.isSolution_of_candidate_eq_none hcount hnone (tree_below_iff.mpr hbelow)
  rw [hnot] at hcomplete
  cases hcomplete

/-- At its end a walk has nothing exactly if there is nothing to be found. -/
theorem candidate_eq_none_iff (h : Arises size walk) (hfinal : walk.isFinal = true) :
    walk.candidate = none ↔ ¬Solvable size := by
  constructor
  · exact h.not_solvable
  · intro hnot
    cases hcandidate : walk.candidate with
    | none => rfl
    | some placement =>
        exact absurd ⟨placement.queens, h.length_eq hfinal hcandidate,
          (h.legal hcandidate).peaceful⟩ hnot

end Arises

theorem candidate_walk (size : Nat) : (empty size).walk.candidate = some (empty size) := by
  unfold walk SearchTree.walk SearchTree.walkAsking SearchTree.enter
  cases hcomplete : tree.isSolution (empty size) <;> simp [Walk.candidate]

/-- On a board with rows the empty placement is no solution yet. -/
theorem isFinal_walk (hsize : 1 ≤ size) : (empty size).walk.isFinal = false := by
  rw [(arises_walk size).isFinal_eq, candidate_walk]
  simp only [Option.all_some, isComplete, queenCount, empty, List.length_nil, beq_eq_false_iff_ne]
  omega

end Placement

end QueensPuzzle
