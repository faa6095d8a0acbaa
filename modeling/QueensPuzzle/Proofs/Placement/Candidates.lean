import Mathlib.Data.List.Permutation
import QueensPuzzle.Proofs.Placement.Branches

/-! # What a walk shows

A walk from the empty board shows queens on the first rows, one on each, that leave each other in
peace. An advance takes off the last of them, or none, and puts one on the row that is next then.
No queens are shown twice, and the walk ends with the queens that the eager search finds.
-/

namespace QueensPuzzle.Placement

open Search

/-- Queens on the first rows of a board, placed from the top, none of which attacks another. -/
structure FillsRows (size : Nat) (queens : List Square) : Prop where
  rows_eq : queens.map (·.row) = List.range queens.length
  peaceful : Peaceful size queens

/-- How many placements the eager search asks for their successors. -/
def expansions (root : Placement) : Nat := expansionCount (tree.queries root.height root)

variable {size count other : Nat} {root placement child : Placement} {walk next : Walk Placement}

theorem Legal.walkAfter_expansions (h : Legal size root) :
    ∃ last, tree.walkAfter root root.expansions = .ok last ∧ last.isFinal = true ∧
      last.candidate = root.resolve :=
  h.within_height.walkAfter_expansionCount

theorem endsAfter_expansions (size : Nat) :
    tree.EndsAfter (empty size) (empty size).expansions := by
  have hempty : Legal size (empty size) := .empty
  exact hempty.within_height.endsAfter_expansionCount

theorem expansions_pos (hsize : 1 ≤ size) : 0 < (empty size).expansions := by
  rw [Nat.pos_iff_ne_zero]
  intro hzero
  have hover : (empty size).walk.isFinal = true :=
    ((endsAfter_expansions size).isFinal_iff SearchTree.walkAfter_zero).mpr hzero.symm
  rw [isFinal_walk hsize] at hover
  cases hover

theorem queens_solve_backtracking (size : Nat) :
    (Engine.backtracking.solve size).queens = (empty size).resolve.map (·.queens) := rfl

/-- The end of a walk is reached with the last of these expansions, and with the solution of the
depth-first engine. -/
theorem queens_solve_of_isFinal (hwalk : tree.walkAfter (empty size) count = .ok walk)
    (hfinal : walk.isFinal = true) :
    count = (empty size).expansions ∧
      (Engine.backtracking.solve size).queens = walk.candidate.map (·.queens) := by
  have hempty : Legal size (empty size) := .empty
  obtain ⟨last, hlast, _, hfound⟩ := hempty.walkAfter_expansions
  have hcount := ((endsAfter_expansions size).isFinal_iff hwalk).mp hfinal
  rw [hcount, hlast] at hwalk
  cases hwalk
  rw [hfound, queens_solve_backtracking]
  exact ⟨hcount, rfl⟩

/-! ## The queens -/

theorem fillsRows_of_below (h : Below (empty size) placement) :
    FillsRows size placement.queens := by
  have hempty : Legal size (empty size) := .empty
  obtain ⟨extra, rfl, hrows, hpeace⟩ := hempty.below_iff.mp h
  have hqueens : ((empty size).extend extra).queens = extra := queens_extend _ _
  rw [hqueens]
  refine ⟨?_, hpeace⟩
  rw [hrows, List.range_eq_range']
  rfl

namespace Arises

theorem below (h : Arises size walk) (hcandidate : walk.candidate = some placement) :
    Below (empty size) placement := by
  obtain ⟨count, hcount⟩ := h
  exact tree_below_iff.mp (SearchTree.below_of_candidate hcount hcandidate)

theorem fillsRows (h : Arises size walk) (hcandidate : walk.candidate = some placement) :
    FillsRows size placement.queens :=
  fillsRows_of_below (h.below hcandidate)

end Arises

/-- One queen was placed from each frame to the next. -/
theorem length_frames {frames : List (Frame Placement)} {top : Frame Placement}
    (hlinked : (top :: frames).IsChain (Frame.Continues tree))
    (hroot : (top :: frames).getLast?.map (·.node) = some root) :
    top.node.queens.length = root.queens.length + frames.length := by
  induction frames generalizing top with
  | nil =>
      have htop : top.node = root := by simpa using hroot
      simp [htop]
  | cons parent frames ih =>
      have hlinks := List.isChain_cons_cons.mp hlinked
      have hparent := ih hlinks.2 (by simpa using hroot)
      obtain ⟨tried, htried⟩ := hlinks.1
      have hbranch : top.node ∈ tree.branches parent.node := by simp [htried]
      rw [length_queens_of_branch hbranch, hparent, List.length_cons]
      omega

theorem Arises.depth_eq (h : Arises size walk) (hfinal : walk.isFinal = false)
    (hcandidate : walk.candidate = some placement) :
    walk.depth = placement.queens.length + 1 := by
  obtain ⟨count, hcount⟩ := h
  obtain ⟨phase, advances⟩ := walk
  cases phase with
  | finished found => cases hfinal
  | searching trail =>
      have hleads := SearchTree.walkAfter_leadsFrom hcount rfl
      show trail.depth = placement.queens.length + 1
      cases hframes : trail.frames with
      | nil => simp [Walk.candidate, hframes] at hcandidate
      | cons top frames =>
          have htop : top.node = placement := by simpa [Walk.candidate, hframes] using hcandidate
          have hlength := length_frames (hframes ▸ hleads.linked) (hframes ▸ hleads.root_eq)
          rw [htop] at hlength
          rw [trail.depth_eq, hframes, hlength]
          simp [empty]

/-! ## Advances -/

/-- An advance keeps some of the queens, from the top, and puts one on the row below them. -/
theorem Arises.queens_of_advance (h : Arises size walk) (hadvance : walk.advance tree = .ok next)
    (hcandidate : walk.candidate = some placement) (hchild : next.candidate = some child) :
    ∃ kept ≤ placement.queens.length, ∃ queen : Square,
      child.queens = placement.queens.take kept ++ [queen] ∧ queen.row = kept := by
  have hrows := ((h.advance hadvance).fillsRows hchild).rows_eq
  obtain ⟨count, hcount⟩ := h
  obtain ⟨parent, hbelow, hbranch⟩ :=
    SearchTree.exists_parent_of_advance hcount hadvance hcandidate hchild
  have hkept : parent.queens <+: placement.queens := (tree_below_iff.mp hbelow).isPrefix
  obtain ⟨queen, _, _, rfl⟩ := mem_successors.mp (mem_sortedSuccessors.mp hbranch)
  refine ⟨parent.queens.length, hkept.length_le, queen, ?_, ?_⟩
  · rw [queens_place, ← List.prefix_iff_eq_take.mp hkept]
  · -- The rows of the new queens are known, and so is the row of the last of them.
    rw [queens_place, List.map_append, List.length_append, List.length_singleton,
      List.range_succ] at hrows
    simpa using (List.append_inj' hrows rfl).2

/-- Walks that show the same have taken equally many advances. -/
theorem count_eq_of_queens_eq {twin : Walk Placement}
    (hwalk : tree.walkAfter (empty size) count = .ok walk)
    (htwin : tree.walkAfter (empty size) other = .ok twin)
    (hqueens : walk.candidate.map (·.queens) = twin.candidate.map (·.queens)) : count = other := by
  have hempty : Legal size (empty size) := .empty
  have hnodup := hempty.nodup_preorder (max count other + 1)
  have hfirst : walk.candidate = (tree.preorder (max count other + 1) (empty size))[count]? :=
    SearchTree.candidate_walkAfter hwalk (by omega)
  have hsecond : twin.candidate = (tree.preorder (max count other + 1) (empty size))[other]? :=
    SearchTree.candidate_walkAfter htwin (by omega)
  cases hcandidate : walk.candidate with
  | some placement =>
      have hlength := (List.getElem?_eq_some_iff.mp (hfirst.symm.trans hcandidate)).1
      rw [hfirst, hsecond, ← List.getElem?_map, ← List.getElem?_map] at hqueens
      exact (List.getElem?_inj (by simpa using hlength) hnodup).mp hqueens
  | none =>
      -- Nothing is shown at the end only.
      have hnone : twin.candidate = none := by simpa [hcandidate] using hqueens.symm
      have hends := endsAfter_expansions size
      rw [(hends.isFinal_iff hwalk).mp (by simp [SearchTree.isFinal_walkAfter hwalk, hcandidate]),
        (hends.isFinal_iff htwin).mp (by simp [SearchTree.isFinal_walkAfter htwin, hnone])]

/-- As long as a walk from the empty board goes on, it shows a placement. Its queens are on the
first rows of the board, in order, and leave each other in peace, and the walk is one level deeper
than there are queens. An advance to a further placement keeps some of the queens, from the top, and
puts one on the row below them. No two walks show the same. After finitely many advances the walk
is at its end, with the solution of the depth-first engine. -/
theorem walk_fills_rows (size : Nat) :
    (∀ count walk, tree.walkAfter (empty size) count = .ok walk →
      (walk.isFinal = false → ∃ placement, walk.candidate = some placement) ∧
      ∀ placement, walk.candidate = some placement →
        FillsRows size placement.queens ∧
        (size ≤ UInt64.size / 2 → Square.conflictFree placement.queens = true) ∧
        (walk.isFinal = false → walk.depth = placement.queens.length + 1) ∧
        ∀ next child, walk.advance tree = .ok next → next.candidate = some child →
          ∃ kept ≤ placement.queens.length, ∃ queen : Square,
            child.queens = placement.queens.take kept ++ [queen] ∧ queen.row = kept) ∧
    (∀ count other walk twin, tree.walkAfter (empty size) count = .ok walk →
      tree.walkAfter (empty size) other = .ok twin → count ≠ other →
      walk.candidate.map (·.queens) ≠ twin.candidate.map (·.queens)) ∧
    ∃ total last, tree.walkAfter (empty size) total = .ok last ∧ last.isFinal = true ∧
      last.solution.map (·.queens) = (Engine.backtracking.solve size).queens := by
  refine ⟨?_, ?_, ?_⟩
  · intro count walk hwalk
    have harises : Arises size walk := ⟨count, hwalk⟩
    refine ⟨harises.exists_candidate, ?_⟩
    intro placement hcandidate
    have hfills := harises.fillsRows hcandidate
    exact ⟨hfills, fun hsize => hfills.peaceful.conflictFree hsize,
      fun hfinal => harises.depth_eq hfinal hcandidate,
      fun next child hadvance hchild => harises.queens_of_advance hadvance hcandidate hchild⟩
  · intro count other walk twin hwalk htwin hne hqueens
    exact hne (count_eq_of_queens_eq hwalk htwin hqueens)
  · obtain ⟨last, hlast, hfinal⟩ := endsAfter_expansions size
    refine ⟨_, last, hlast, hfinal, ?_⟩
    rw [last.solution_eq_candidate hfinal, (queens_solve_of_isFinal hlast hfinal).2]

/-- The fourth advance on four rows takes two of three queens off. -/
theorem four_rows_filled :
    ∃ walk next placement child, tree.walkAfter (empty 4) 3 = .ok walk ∧
      walk.advance tree = .ok next ∧ walk.candidate = some placement ∧
      next.candidate = some child ∧ walk.depth = 4 ∧
      placement.queens = [⟨0, 0⟩, ⟨1, 3⟩, ⟨2, 1⟩] ∧
      ∃ kept ≤ 3, ∃ queen : Square,
        child.queens = placement.queens.take kept ++ [queen] ∧ queen.row = kept := by
  have hfour : ∃ next, tree.walkAfter (empty 4) 4 = .ok next := ⟨_, by cbv⟩
  obtain ⟨next, hnext⟩ := hfour
  obtain ⟨walk, hwalk, hadvance⟩ := SearchTree.walkAfter_succ_eq_ok_iff.mp hnext
  have hshown : walk.candidate.map (·.queens) = some [⟨0, 0⟩, ⟨1, 3⟩, ⟨2, 1⟩] := by
    rw [SearchTree.candidate_walkAfter hwalk (show 3 < 4 by decide)]
    cbv
  have hfewer : next.candidate.map (·.queens) = some [⟨0, 0⟩, ⟨1, 2⟩] := by
    rw [SearchTree.candidate_walkAfter hnext (show 4 < 5 by decide)]
    cbv
  obtain ⟨placement, hcandidate, hqueens⟩ := Option.map_eq_some_iff.mp hshown
  obtain ⟨child, hchild, _⟩ := Option.map_eq_some_iff.mp hfewer
  have hfinal : walk.isFinal = false :=
    (SearchTree.exists_advance_iff tree walk).mp ⟨next, hadvance⟩
  obtain ⟨hshows, _, _⟩ := walk_fills_rows 4
  obtain ⟨_, hall⟩ := hshows 3 walk hwalk
  obtain ⟨_, _, hdepth, hkept⟩ := hall placement hcandidate
  have hthree : placement.queens.length = 3 := by rw [hqueens]; rfl
  rw [hthree] at hdepth hkept
  exact ⟨walk, next, placement, child, hwalk, hadvance, hcandidate, hchild, hdepth hfinal, hqueens,
    hkept next child hadvance hchild⟩

end QueensPuzzle.Placement
