import Mathlib.Data.Fintype.BigOperators
import QueensPuzzle.Proofs.Placement.Completion
import QueensPuzzle.Proofs.Search.Coverage
import QueensPuzzle.Proofs.Search.DepthFirst
import QueensPuzzle.Solver

/-! # Both engines complete what can be completed

The placements below a root form a tree of limited depth, and they are no more than there
are ways to give every row a column or none. So neither engine is stopped by its limit, and
what an engine finds is settled by the placements below the root alone.
-/

namespace QueensPuzzle

open Search

namespace Placement

variable {size : Nat} {root placement : Placement}

theorem tree_below_iff : tree.Below root placement ↔ Below root placement := by
  have hstep : (fun above next => next ∈ tree.branches above) =
      fun (above next : Placement) => next ∈ above.successors := by
    funext above next
    exact propext mem_sortedSuccessors
  rw [SearchTree.Below, hstep]
  exact Iff.rfl

/-- Every queen goes on a lower row, so the tree ends where the rows end. -/
theorem Legal.within {depth : Nat} (h : Legal size placement)
    (hdepth : size < depth + placement.nextRow) : tree.Within depth placement := by
  induction depth generalizing placement with
  | zero =>
      have hle := h.nextRow_le
      omega
  | succ depth ih =>
      intro next hnext
      have hsuccessor := mem_sortedSuccessors.mp hnext
      apply ih (h.of_mem_successors hsuccessor)
      obtain ⟨square, _, hrow, rfl⟩ := mem_successors.mp hsuccessor
      rw [nextRow_place, hrow]
      omega

theorem Legal.within_height (h : Legal size root) : tree.Within root.height root := by
  apply h.within
  rw [height, h.size_eq]
  omega

theorem Legal.interchangeable (h : Legal size root) : graph.Interchangeable root := by
  constructor
  · intro a b ha hb hqueens
    rw [h.eq_of_queens_eq ha hb hqueens]
  · intro a b ha hb hqueens key
    rw [h.eq_of_queens_eq ha hb hqueens]

/-- The column of the queen in some place of a list, if there is one and it is on the board. -/
def columnAt (size : Nat) (queens : List Square) (index : Fin size) : Option (Fin size) :=
  queens[index.val]?.bind fun queen =>
    if h : queen.column < size then some ⟨queen.column, h⟩ else none

theorem map_val_columnAt {queens : List Square} (h : Peaceful size queens) (index : Fin size) :
    (columnAt size queens index).map Fin.val = (queens.map (·.column))[index.val]? := by
  rw [columnAt, List.getElem?_map]
  cases hqueen : queens[index.val]? with
  | none => rfl
  | some queen =>
      have hcolumn := (h.on_board queen (List.mem_of_getElem? hqueen)).2
      simp [hcolumn]

theorem map_column_eq_of_columnAt_eq {queens more : List Square} (h : Peaceful size queens)
    (hmore : Peaceful size more) (heq : columnAt size queens = columnAt size more) :
    queens.map (·.column) = more.map (·.column) := by
  have hlength := h.length_le
  have hmore_length := hmore.length_le
  apply List.ext_getElem?
  intro i
  by_cases hi : i < size
  · have hcolumns := map_val_columnAt h ⟨i, hi⟩
    rw [heq, map_val_columnAt hmore] at hcolumns
    exact hcolumns.symm
  · rw [List.getElem?_eq_none (by rw [List.length_map]; omega),
      List.getElem?_eq_none (by rw [List.length_map]; omega)]

theorem eq_of_rows_of_columns {queens more : List Square}
    (hrows : queens.map (·.row) = more.map (·.row))
    (hcolumns : queens.map (·.column) = more.map (·.column)) : queens = more := by
  induction queens generalizing more with
  | nil => simpa using hrows
  | cons queen queens ih =>
      cases more with
      | nil => simp at hrows
      | cons other more =>
          simp only [List.map_cons, List.cons.injEq] at hrows hcolumns
          obtain ⟨row, column⟩ := queen
          obtain ⟨_, _⟩ := other
          obtain ⟨rfl, hrows⟩ := hrows
          obtain ⟨rfl, hcolumns⟩ := hcolumns
          rw [ih hrows hcolumns]

/-- The rows of the queens below a root are known from their number, so the columns tell the
placements apart. -/
theorem Legal.columnAt_injOn (h : Legal size root) :
    (graph.reachableKeys root).InjOn (columnAt size) := by
  rintro _ ⟨a, ha, rfl⟩ _ ⟨b, hb, rfl⟩ heq
  obtain ⟨extra, rfl, hrows, hpeace⟩ := h.below_iff.mp ha
  obtain ⟨more, rfl, hmore, hmore_peace⟩ := h.below_iff.mp hb
  change columnAt size (root.extend extra).queens = columnAt size (root.extend more).queens at heq
  change (root.extend extra).queens = (root.extend more).queens
  rw [queens_extend, queens_extend] at heq ⊢
  have hcolumns := map_column_eq_of_columnAt_eq hpeace hmore_peace heq
  have hlength : extra.length = more.length := by
    have hlengths := congrArg List.length hcolumns
    simpa using hlengths
  apply eq_of_rows_of_columns
  · rw [List.map_append, List.map_append, hrows, hmore, hlength]
  · exact hcolumns

theorem Legal.ncard_reachableKeys (h : Legal size root) :
    (graph.reachableKeys root).Finite ∧ (graph.reachableKeys root).ncard < root.reach := by
  have hmaps : ∀ key ∈ graph.reachableKeys root, columnAt size key ∈ Set.univ := by
    intro key _
    exact Set.mem_univ _
  have hinj := h.columnAt_injOn
  have hcard := Set.ncard_le_ncard_of_injOn (columnAt size) hmaps hinj Set.finite_univ
  refine ⟨Set.Finite.of_injOn hmaps hinj Set.finite_univ, ?_⟩
  rw [Set.ncard_univ, Nat.card_eq_fintype_card, Fintype.card_fun, Fintype.card_option,
    Fintype.card_fin] at hcard
  rw [reach, h.size_eq]
  exact Nat.lt_succ_of_le hcard

theorem Legal.isSome_resolve_iff (h : Legal size root) :
    root.resolve.isSome = true ↔ root.IsGapless ∧ root.IsCompletable := by
  rw [← h.exists_complete_below_iff]
  simp only [← tree_below_iff]
  exact SearchTree.isSome_resolve_iff h.within_height

theorem Legal.path_ne_nil_iff (h : Legal size root) :
    root.explore.path ≠ [] ↔ root.IsGapless ∧ root.IsCompletable := by
  obtain ⟨hfinite, hreach⟩ := h.ncard_reachableKeys
  have hnil := CostGraph.path_eq_nil_iff h.interchangeable hfinite hreach
  rw [← h.exists_complete_below_iff]
  constructor
  · intro hpath
    by_contra hnone
    apply hpath
    apply hnil.mpr
    intro last hbelow
    by_contra hgoal
    exact hnone ⟨last, hbelow, eq_true_of_ne_false hgoal⟩
  · rintro ⟨last, hbelow, hcomplete⟩ hpath
    rw [show last.isComplete = false from hnil.mp hpath last hbelow] at hcomplete
    cases hcomplete

theorem Legal.completes_of_resolve (h : Legal size root) {last : Placement}
    (hlast : root.resolve = some last) : root.Completes last := by
  obtain ⟨hbelow, hcomplete⟩ := SearchTree.below_of_resolve_eq_some h.within_height hlast
  exact h.completes_of_below (tree_below_iff.mp hbelow) hcomplete

theorem Legal.completes_of_explore (h : Legal size root) {last : Placement}
    (hlast : root.explore.path.getLast? = some last) : root.Completes last := by
  obtain ⟨hbelow, hcomplete⟩ := CostGraph.of_path_getLast? hlast
  exact h.completes_of_below hbelow hcomplete

theorem solve_queens_eq_none_iff (engine : Engine) (size : Nat) :
    (engine.solve size).queens = none ↔
      ¬∃ queens : List Square, queens.length = size ∧ Peaceful size queens := by
  have hempty : Legal size (empty size) := .empty
  have hsolvable : (empty size).IsGapless ∧ (empty size).IsCompletable ↔
      ∃ queens : List Square, queens.length = size ∧ Peaceful size queens := by
    rw [isCompletable_empty]
    exact and_iff_right (isGapless_empty size)
  rw [← hsolvable]
  cases engine with
  | astar =>
      rw [← hempty.path_ne_nil_iff]
      change ((empty size).explore.path.getLast?).map (·.queens) = none ↔ _
      simp
  | backtracking =>
      rw [← hempty.isSome_resolve_iff]
      change ((empty size).resolve).map (·.queens) = none ↔ _
      simp

/-- From a legal root each engine comes to an end and succeeds exactly if no row was passed
over and the queens can be completed. It then adds one queen to each row without one, from
the top. -/
theorem engines_find_completion (h : Legal size root) :
    (root.resolve.isSome = true ↔ root.IsGapless ∧ root.IsCompletable) ∧
      (root.explore.path ≠ [] ↔ root.IsGapless ∧ root.IsCompletable) ∧
      root.explore.verdict ≠ .cutOff ∧
      (∀ last, root.resolve = some last ∨ root.explore.path.getLast? = some last →
        root.Completes last) ∧
      ∀ engine : Engine, (engine.solve size).queens = none ↔
        ¬∃ queens : List Square, queens.length = size ∧ Peaceful size queens := by
  obtain ⟨hfinite, hreach⟩ := h.ncard_reachableKeys
  refine ⟨h.isSome_resolve_iff, h.path_ne_nil_iff, CostGraph.verdict_ne_cutOff hfinite hreach, ?_,
    fun engine => solve_queens_eq_none_iff engine size⟩
  intro last hlast
  rcases hlast with hresolve | hexplore
  · exact h.completes_of_resolve hresolve
  · exact h.completes_of_explore hexplore

/-- The first queen stands on the second row: no search goes back to the row above. Where the
queens above are put there by hand, both go on. -/
theorem engines_find_completion_four :
    let gap := (empty 4).place ⟨1, 3⟩
    let full := (gap.place ⟨0, 1⟩).place ⟨2, 0⟩
    gap.IsCompletable ∧ gap.resolve = none ∧ gap.explore.path = [] ∧
      full.resolve.isSome = true ∧ full.explore.path ≠ [] := by
  intro gap full
  have hgap : Legal 4 gap := .place .empty (Legal.empty.mem_openSquares.mpr (by decide))
  have hnext : Legal 4 (gap.place ⟨0, 1⟩) := hgap.place (hgap.mem_openSquares.mpr (by decide))
  have hfull : Legal 4 full := hnext.place (hnext.mem_openSquares.mpr (by decide))
  have hmissed : ¬gap.IsGapless := by decide
  obtain ⟨hresolve, hpath, _⟩ := engines_find_completion hgap
  obtain ⟨hfound, hway, _⟩ := engines_find_completion hfull
  have hcompletable : full.IsGapless ∧ full.IsCompletable :=
    ⟨by decide, [⟨3, 2⟩], by decide, ⟨by decide, by decide⟩⟩
  refine ⟨⟨[⟨0, 1⟩, ⟨2, 0⟩, ⟨3, 2⟩], by decide, ⟨by decide, by decide⟩⟩, ?_, ?_,
    hfound.mpr hcompletable, hway.mpr hcompletable⟩
  · cases hlast : gap.resolve with
    | none => rfl
    | some last => exact absurd (hresolve.mp (by rw [hlast]; rfl)).1 hmissed
  · by_contra hne
    exact hmissed (hpath.mp hne).1

end Placement

end QueensPuzzle
