import QueensPuzzle.Proofs.Search.Preorder

/-! # How a walk ends

Where the tree has so many levels and no more, its nodes in preorder are finitely many, and a
walk ends at the first of them that is a solution, or behind the last. Every walk from the root
is on the way to that end: how many advances it has taken tells how many are left.
-/

namespace QueensPuzzle.Search

variable {Node : Type}

namespace SearchTree

variable {tree : SearchTree Node} {root : Node} {depth count total : Nat} {walk : Walk Node}

/-- Below the last level there is nothing to be added. -/
theorem Within.preorder_eq {more : Nat} (h : tree.Within depth root) (hle : depth ≤ more) :
    tree.preorder more root = tree.preorder depth root := by
  induction depth generalizing more root with
  | zero => exact h.elim
  | succ depth ih =>
      obtain ⟨more, rfl⟩ : ∃ k, more = k + 1 := ⟨more - 1, by omega⟩
      rw [preorder, preorder, List.flatMap_congr fun child hchild => ih (h child hchild) (by omega)]

/-- The walk from the root is at its end after so many advances. -/
def EndsAfter (tree : SearchTree Node) (root : Node) (count : Nat) : Prop :=
  ∃ last, tree.walkAfter root count = .ok last ∧ last.isFinal = true

theorem Within.exists_endsAfter (h : tree.Within depth root) :
    ∃ count ≤ (tree.preorder depth root).length, tree.EndsAfter root count := by
  let count := (tree.preorder depth root).findIdx tree.isSolution
  have hentries : tree.preorder (max depth (count + 1)) root = tree.preorder depth root :=
    h.preorder_eq (Nat.le_max_left _ _)
  have hdepth : count < max depth (count + 1) := by omega
  have hbefore : ∀ i < count, ∃ node, (tree.preorder depth root)[i]? = some node ∧
      tree.isSolution node = false := by
    intro i hi
    have hlength : i < (tree.preorder depth root).length :=
      Nat.lt_of_lt_of_le hi List.findIdx_le_length
    exact ⟨_, List.getElem?_eq_getElem hlength, by simpa using List.not_of_lt_findIdx hi⟩
  rw [← hentries] at hbefore
  obtain ⟨last, hlast⟩ := (exists_walkAfter_iff tree root hdepth).mpr hbefore
  refine ⟨count, List.findIdx_le_length, last, hlast, ?_⟩
  rw [isFinal_walkAfter hlast, candidate_walkAfter hlast hdepth, hentries]
  cases hnode : (tree.preorder depth root)[count]? with
  | none => rfl
  | some node =>
      obtain ⟨hlength, rfl⟩ := List.getElem?_eq_some_iff.mp hnode
      exact List.findIdx_getElem

theorem walkAfter_eq_ok_of_le (h : tree.walkAfter root total = .ok walk) (hle : count ≤ total) :
    ∃ before, tree.walkAfter root count = .ok before := by
  induction total generalizing walk with
  | zero =>
      obtain rfl : count = 0 := by omega
      exact ⟨walk, h⟩
  | succ total ih =>
      by_cases hcount : count = total + 1
      · rw [hcount]
        exact ⟨walk, h⟩
      · obtain ⟨before, hbefore, _⟩ := walkAfter_succ_eq_ok_iff.mp h
        exact ih hbefore (by omega)

namespace EndsAfter

/-- No walk goes on behind the end. -/
theorem le (h : tree.EndsAfter root total) (hwalk : tree.walkAfter root count = .ok walk) :
    count ≤ total := by
  obtain ⟨last, hlast, hfinal⟩ := h
  by_contra hlt
  obtain ⟨next, hnext⟩ := walkAfter_eq_ok_of_le hwalk (show total + 1 ≤ count by omega)
  obtain ⟨before, hbefore, hadvance⟩ := walkAfter_succ_eq_ok_iff.mp hnext
  rw [hlast] at hbefore
  cases hbefore
  have hnot := (exists_advance_iff tree last).mp ⟨next, hadvance⟩
  rw [hfinal] at hnot
  cases hnot

/-- There is one end only. -/
theorem unique (h : tree.EndsAfter root total) (hcount : tree.EndsAfter root count) :
    count = total := by
  have ⟨_, hlast, _⟩ := h
  have ⟨_, hother, _⟩ := hcount
  exact Nat.le_antisymm (h.le hother) (hcount.le hlast)

theorem isFinal_iff (h : tree.EndsAfter root total) (hwalk : tree.walkAfter root count = .ok walk) :
    walk.isFinal = true ↔ count = total := by
  constructor
  · intro hfinal
    exact h.unique ⟨walk, hwalk, hfinal⟩
  · rintro rfl
    obtain ⟨last, hlast, hfinal⟩ := h
    rw [hwalk] at hlast
    cases hlast
    exact hfinal

end EndsAfter

end SearchTree

namespace Walk

variable {tree : SearchTree Node} {walk next : Walk Node} {limit : Nat}

theorem run_succ (h : walk.advance tree = .ok next) (limit : Nat) :
    walk.run tree (limit + 1) = next.run tree limit := by
  rw [run, runAsking_of_advance h]
  rfl

theorem run_of_isFinal (h : walk.isFinal = true) (limit : Nat) : walk.run tree limit = walk := by
  obtain ⟨phase, advances⟩ := walk
  cases phase with
  | finished found => exact congrArg Prod.fst (runAsking_finished _ limit found advances ())
  | searching trail => cases h

end Walk

namespace SearchTree

variable {tree : SearchTree Node} {root : Node} {count total limit : Nat} {walk : Walk Node}

theorem run_walkAfter (h : tree.walkAfter root count = .ok walk) (limit : Nat) :
    (tree.walk root).run tree (count + limit) = walk.run tree limit := by
  induction count generalizing walk limit with
  | zero =>
      cases h
      rw [Nat.zero_add]
  | succ count ih =>
      obtain ⟨before, hbefore, hadvance⟩ := walkAfter_succ_eq_ok_iff.mp h
      rw [← Walk.run_succ hadvance, ← ih hbefore, Nat.add_right_comm, Nat.add_assoc]

/-- A run that is not cut off comes to the end. -/
theorem EndsAfter.walkAfter_run (h : tree.EndsAfter root total) (hlimit : total ≤ limit) :
    tree.walkAfter root total = .ok ((tree.walk root).run tree limit) ∧
      ((tree.walk root).run tree limit).isFinal = true := by
  obtain ⟨last, hlast, hfinal⟩ := h
  obtain ⟨extra, rfl⟩ := Nat.exists_eq_add_of_le hlimit
  rw [run_walkAfter hlast, Walk.run_of_isFinal hfinal]
  exact ⟨hlast, hfinal⟩

/-- The walk ends after one advance for each node that the eager search asks for its branches,
and with what that search finds. -/
theorem Within.walkAfter_expansionCount {depth : Nat} (h : tree.Within depth root) :
    ∃ last, tree.walkAfter root (expansionCount (tree.queries depth root)) = .ok last ∧
      last.isFinal = true ∧ last.candidate = tree.resolve depth root := by
  obtain ⟨total, _, hends⟩ := h.exists_endsAfter
  let expansions := expansionCount (tree.queries depth root)
  have hrun : (tree.walk root).run tree (max total expansions) =
      ⟨.finished (tree.resolve depth root), expansions⟩ :=
    congrArg Prod.fst
      (walkAsking_eq_of_explores (explores_queries h) (Nat.le_max_right _ _) (fun _ _ => ()) ())
  obtain ⟨hlast, _⟩ := hends.walkAfter_run (Nat.le_max_left total expansions)
  rw [hrun] at hlast
  obtain rfl : expansions = total := advances_walkAfter hlast
  exact ⟨_, hlast, rfl, rfl⟩

theorem Within.endsAfter_expansionCount {depth : Nat} (h : tree.Within depth root) :
    tree.EndsAfter root (expansionCount (tree.queries depth root)) := by
  obtain ⟨last, hlast, hfinal, _⟩ := h.walkAfter_expansionCount
  exact ⟨last, hlast, hfinal⟩

end SearchTree

end QueensPuzzle.Search
