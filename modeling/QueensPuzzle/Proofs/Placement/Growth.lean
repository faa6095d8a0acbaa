import QueensPuzzle.Proofs.Placement.Branches
import QueensPuzzle.Proofs.Search.TreeGrowth

/-! # The best-first search grows a tree

A placement tells by its queens, in their order, from which one it came. So for the best-first
search the placements below a root are a tree: no placement is met twice, none is replaced, and what
the costs are does not matter for that. A path through the tree puts the queens of its end on the
board one by one.
-/

namespace QueensPuzzle.Placement

open Search

variable {size : Nat} {root placement : Placement}

theorem Legal.isTree (h : Legal size root) : graph.IsTree root where
  keys_nodup placement hbelow := (h.of_below hbelow).nodup_queens_successors
  key_parent_eq a b _ _ c hc d hd hqueens := by
    obtain ⟨square, _, _, rfl⟩ := mem_successors.mp hc
    obtain ⟨other, _, _, rfl⟩ := mem_successors.mp hd
    -- The last queen is the new one, and the others are those of the parent.
    change a.queens ++ [square] = b.queens ++ [other] at hqueens
    exact (List.append_inj' hqueens rfl).1
  key_ne_start placement hbelow next hnext hqueens := by
    obtain ⟨square, _, _, rfl⟩ := mem_successors.mp hnext
    have hlength := (Below.isPrefix hbelow).length_le
    change placement.queens ++ [square] = root.queens at hqueens
    rw [← hqueens, List.length_append, List.length_singleton] at hlength
    omega

/-- Along a way through successors the queens of its end are placed one after the other. -/
theorem exists_added_of_isChain {path : List Placement} (hhead : path.head? = some root)
    (hlinked : path.IsChain fun above next => next ∈ above.successors) :
    ∃ added, path.getLast? = some (root.extend added) ∧ path.length = added.length + 1 ∧
      ∀ i ≤ added.length, path[i]? = some (root.extend (added.take i)) := by
  induction path generalizing root with
  | nil => cases hhead
  | cons first rest ih =>
      cases hhead
      cases rest with
      | nil =>
          refine ⟨[], rfl, rfl, ?_⟩
          intro i hi
          obtain rfl : i = 0 := Nat.le_zero.mp hi
          rfl
      | cons second rest =>
          obtain ⟨hnext, hrest⟩ := List.isChain_cons_cons.mp hlinked
          obtain ⟨square, _, _, rfl⟩ := mem_successors.mp hnext
          obtain ⟨added, hlast, hlength, hnodes⟩ := ih rfl hrest
          refine ⟨square :: added, ?_, ?_, ?_⟩
          · rw [List.getLast?_cons_cons, hlast]
            rfl
          · rw [List.length_cons, hlength, List.length_cons]
          · intro i hi
            cases i with
            | zero => rfl
            | succ i =>
                rw [List.getElem?_cons_succ, hnodes i (Nat.le_of_succ_le_succ hi)]
                rfl

theorem Legal.path_places_one_by_one (h : Legal size root) (hpath : root.explore.path ≠ []) :
    ∃ added, added.length = size - root.queenCount ∧
      root.explore.path.getLast? = some (root.extend added) ∧
      root.explore.path.length = size - root.queenCount + 1 ∧
      ∀ i ≤ added.length, root.explore.path[i]? = some (root.extend (added.take i)) := by
  obtain ⟨records, slot, hreached⟩ := CostGraph.path_ne_nil_iff.mp hpath
  obtain ⟨goal, _, hgoal, _, hroute⟩ := CostGraph.isRoute_of_reached hreached
  obtain ⟨added, hlast, hlength, hnodes⟩ := exists_added_of_isChain hroute.head_eq hroute.linked
  have hend : root.extend added = goal.node := Option.some.inj (hlast.symm.trans hroute.last_eq)
  have hcomplete : (root.extend added).isComplete = true := by
    rw [hend]
    exact hgoal
  have hcount := h.isComplete_extend.mp hcomplete
  rw [List.length_append] at hcount
  have hadded : added.length = size - root.queenCount := by
    rw [queenCount]
    omega
  exact ⟨added, hadded, hlast, hadded ▸ hlength, hnodes⟩

/-- From a legal root, after any number of expansions: each successor of the placement that is
expanded next has queens that no record has when its turn comes, so there is one record for the root
and one for each successor that was handed out, and no queens were expanded twice. The search ends
behind such a state, and keeps that. A path has a placement for the root and one for each queen that
is added, and places these in their order. -/
theorem search_grows_tree (h : Legal size root) :
    (∀ count x, Exploration.After graph root count x →
      (∀ slot record rest,
        x.queue.popAccepted Entry.before (Exploration.current x.records) =
          some ((slot, record), rest) →
        ∀ before next behind, record.node.successors = before ++ next :: behind →
          (before.foldl (Exploration.discover graph slot record.close)
            (x.select slot record rest)).slots[next.queens]? = none) ∧
      x.expansions.size = count ∧
      x.records.size =
        1 + (x.expansions.toList.map fun expansion => expansion.node.successors.length).sum ∧
      (∀ expansion ∈ x.expansions.toList, Below root expansion.node) ∧
      (x.expansions.toList.map (·.node.queens)).Nodup) ∧
    (∃ count x, Exploration.After graph root count x ∧ x.step graph = .ended root.explore ∧
      root.explore.expansions = x.expansions) ∧
    (root.explore.expanded.map (·.queens)).Nodup ∧
    (root.explore.path ≠ [] → ∃ added, added.length = size - root.queenCount ∧
      root.explore.path.getLast? = some (root.extend added) ∧
      root.explore.path.length = size - root.queenCount + 1 ∧
      ∀ i ≤ added.length, root.explore.path[i]? = some (root.extend (added.take i))) := by
  have htree := h.isTree
  obtain ⟨hfinite, hreach⟩ := h.ncard_reachableKeys
  obtain ⟨count, last, hafter, hended, hexpansions⟩ :=
    CostGraph.exists_after_of_search (CostGraph.verdict_ne_cutOff hfinite hreach)
  refine ⟨?_, ⟨count, last, hafter, hended, hexpansions⟩, ?_, h.path_places_one_by_one⟩
  · intro count x hx
    refine ⟨?_, hx.size_expansions, hx.size_records htree,
      fun _ => hx.reachable_of_mem_expansions, hx.keys_expansions_nodup⟩
    intro slot record rest hpop before next behind hnext
    obtain ⟨_, entry, hentry, _, _⟩ := Queue.exists_of_popAccepted_eq_some hpop
    obtain ⟨_, hrecord, hopen⟩ := Exploration.current_eq_some hentry
    exact hx.slots_eq_none htree hrecord hopen rest hnext
  · have hnodup := hafter.keys_expansions_nodup
    rw [← hexpansions] at hnodup
    rw [Outcome.expanded, List.map_map]
    exact hnodup

/-- On four rows there is one way to go on from a queen in the second column. -/
theorem second_column_grows_tree :
    let root := (empty 4).place ⟨0, 1⟩
    (root.explore.expanded.map (·.queens)).Nodup ∧ ∃ added : List Square, added.length = 3 ∧
      root.explore.path.length = 4 ∧
      root.explore.path[0]? = some root ∧
      root.explore.path[2]? = some (root.extend (added.take 2)) ∧
      root.explore.path.getLast? = some (root.extend added) := by
  intro root
  have hroot : Legal 4 root := .place .empty (mem_openSquares_empty.mpr (by decide))
  have hcompletable : root.IsGapless ∧ root.IsCompletable :=
    ⟨by decide, [⟨1, 3⟩, ⟨2, 0⟩, ⟨3, 2⟩], by decide, ⟨by decide, by decide⟩⟩
  obtain ⟨_, _, hnodup, hpath⟩ := search_grows_tree hroot
  obtain ⟨added, hadded, hlast, hlength, hnodes⟩ := hpath (hroot.path_ne_nil_iff.mpr hcompletable)
  have hthree : added.length = 3 := hadded
  exact ⟨hnodup, added, hthree, hlength, hnodes 0 (by omega), hnodes 2 (by omega), hlast⟩

end QueensPuzzle.Placement
