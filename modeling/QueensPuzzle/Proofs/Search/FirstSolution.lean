import QueensPuzzle.Proofs.Search.Ending

/-! # The first solution in preorder

The eager search is one sweep along the nodes in preorder. It tests each of them and asks those
that are no solution for their branches, until it comes to a solution or to the end. A limit on
the depth cuts the search off where it cuts off the list, so the two agree whatever the limit;
on a finite tree there is a limit from which on nothing is cut off.
-/

namespace QueensPuzzle.Search

variable {Node σ : Type}

namespace Query

/-- The node that is tested for being a solution. -/
def tested? : Query Node → Option Node
  | .isSolution node => some node
  | .branches _ => none

/-- The node that is asked for its branches. -/
def expanded? : Query Node → Option Node
  | .isSolution _ => none
  | .branches node => some node

end Query

namespace SearchTree

variable {tree : SearchTree Node} {root node : Node} {depth : Nat} {entries : List Node}

/-- Tests the nodes of a list in turn and asks for the branches of each that is no solution, up
to the first that is one. What the branches are has no part in it. -/
def sweep (tree : SearchTree Node) (note : σ → Query Node → σ) :
    List Node → σ → Option Node × σ
  | [], seen => (none, seen)
  | node :: rest, seen =>
      let seen := note seen (.isSolution node)
      if tree.isSolution node then (some node, seen)
      else tree.sweep note rest (note seen (.branches node))

theorem sweep_cons_of_solution (note : σ → Query Node → σ) (h : tree.isSolution node = true)
    (rest : List Node) (seen : σ) :
    tree.sweep note (node :: rest) seen = (some node, note seen (.isSolution node)) := by
  simp [sweep, h]

theorem sweep_cons_of_not_solution (note : σ → Query Node → σ) (h : tree.isSolution node = false)
    (rest : List Node) (seen : σ) :
    tree.sweep note (node :: rest) seen =
      tree.sweep note rest (note (note seen (.isSolution node)) (.branches node)) := by
  simp [sweep, h]

theorem sweep_append (tree : SearchTree Node) (note : σ → Query Node → σ)
    (first second : List Node) (seen : σ) :
    tree.sweep note (first ++ second) seen =
      match tree.sweep note first seen with
      | (some found, seen) => (some found, seen)
      | (none, seen) => tree.sweep note second seen := by
  induction first generalizing seen with
  | nil => rfl
  | cons node first ih =>
      rw [List.cons_append]
      cases hsolution : tree.isSolution node with
      | true => simp [sweep_cons_of_solution note hsolution]
      | false =>
          rw [sweep_cons_of_not_solution note hsolution, sweep_cons_of_not_solution note hsolution]
          exact ih _

/-- Sweeping the parts one after the other until something is found is sweeping them all. -/
theorem firstFound_sweep {visit : Node → σ → Option Node × σ} {part : Node → List Node}
    {note : σ → Query Node → σ} (hvisit : ∀ node, visit node = tree.sweep note (part node))
    (nodes : List Node) (seen : σ) :
    firstFound visit nodes seen = tree.sweep note (nodes.flatMap part) seen := by
  induction nodes generalizing seen with
  | nil => rfl
  | cons node nodes ih =>
      rw [List.flatMap_cons, sweep_append, firstFound, hvisit]
      cases hfirst : tree.sweep note (part node) seen with
      | mk found asked =>
          cases found with
          | some solution => rfl
          | none => exact ih asked

theorem descend_eq_sweep (tree : SearchTree Node) (note : σ → Query Node → σ) (depth : Nat)
    (node : Node) :
    tree.descend note depth node = tree.sweep note (tree.preorder depth node) := by
  induction depth generalizing node with
  | zero => rfl
  | succ depth ih =>
      funext seen
      rw [preorder]
      cases hsolution : tree.isSolution node with
      | true => simp [descend, hsolution, sweep_cons_of_solution note hsolution]
      | false =>
          rw [sweep_cons_of_not_solution note hsolution, ← firstFound_sweep ih]
          simp [descend, hsolution]

/-! ## What a sweep finds, and what it asks -/

/-- The nodes that come before the first solution. -/
def untilSolution (tree : SearchTree Node) (entries : List Node) : List Node :=
  entries.takeWhile (!tree.isSolution ·)

/-- Two questions about each node before the first solution, and one about the solution. -/
def questions (tree : SearchTree Node) (entries : List Node) : List (Query Node) :=
  (tree.untilSolution entries).flatMap (fun node => [.isSolution node, .branches node]) ++
    (entries.find? tree.isSolution).toList.map .isSolution

theorem sweep_eq (tree : SearchTree Node) (note : σ → Query Node → σ) (entries : List Node)
    (seen : σ) :
    tree.sweep note entries seen =
      (entries.find? tree.isSolution, (tree.questions entries).foldl note seen) := by
  induction entries generalizing seen with
  | nil => rfl
  | cons node entries ih =>
      cases hsolution : tree.isSolution node with
      | true =>
          rw [sweep_cons_of_solution note hsolution]
          simp [questions, untilSolution, hsolution]
      | false =>
          rw [sweep_cons_of_not_solution note hsolution, ih]
          simp [questions, untilSolution, hsolution]

theorem resolve_eq_find? (tree : SearchTree Node) (depth : Nat) (root : Node) :
    tree.resolve depth root = (tree.preorder depth root).find? tree.isSolution := by
  rw [resolve, descend_eq_sweep, sweep_eq]

theorem queries_eq (tree : SearchTree Node) (depth : Nat) (root : Node) :
    tree.queries depth root = tree.questions (tree.preorder depth root) := by
  rw [queries, descend_eq_sweep, sweep_eq]
  simp

theorem expanded_questions (tree : SearchTree Node) (entries : List Node) :
    (tree.questions entries).filterMap Query.expanded? = tree.untilSolution entries := by
  rw [questions, List.filterMap_append, List.filterMap_flatMap]
  simp [Query.expanded?, List.filterMap_cons, List.filterMap_map, Function.comp_def]

theorem tested_questions (tree : SearchTree Node) (entries : List Node) :
    (tree.questions entries).filterMap Query.tested? =
      tree.untilSolution entries ++ (entries.find? tree.isSolution).toList := by
  rw [questions, List.filterMap_append, List.filterMap_flatMap]
  simp [Query.tested?, List.filterMap_cons, List.filterMap_map, Function.comp_def]

/-- What is left out comes behind the solution. -/
theorem exists_eq_untilSolution_append (tree : SearchTree Node) (entries : List Node) :
    ∃ behind, entries =
        tree.untilSolution entries ++ (entries.find? tree.isSolution).toList ++ behind ∧
      (entries.find? tree.isSolution = none → behind = []) := by
  induction entries with
  | nil => exact ⟨[], rfl, fun _ => rfl⟩
  | cons node entries ih =>
      cases hsolution : tree.isSolution node with
      | true => exact ⟨entries, by simp [untilSolution, hsolution], by simp [hsolution]⟩
      | false =>
          obtain ⟨behind, hentries, hnone⟩ := ih
          refine ⟨behind, ?_, ?_⟩
          · simpa [untilSolution, hsolution] using hentries
          · simpa [hsolution] using hnone

/-! ## Finite trees -/

theorem Within.of_below (h : tree.Within depth root) (hbelow : tree.Below root node) :
    tree.Within depth node := by
  induction hbelow with
  | refl => exact h
  | tail _ hchild ih =>
      cases depth with
      | zero => exact ih.elim
      | succ depth => exact Within.mono (Nat.le_succ depth) (ih _ hchild)

theorem Within.finiteBelow (h : tree.Within depth root) : tree.FiniteBelow root := by
  induction depth generalizing root with
  | zero => exact h.elim
  | succ depth ih => exact .intro root fun child hchild => ih (h child hchild)

/-- Where the tree has no more levels, the order below each of its nodes is complete: the node and
then the orders below its branches. -/
theorem Within.preorder_of_below (h : tree.Within depth root) (hbelow : tree.Below root node) :
    tree.preorder depth node = node :: (tree.branches node).flatMap (tree.preorder depth) :=
  ((h.of_below hbelow).preorder_eq (Nat.le_succ depth)).symm

/-- On a finite tree the eager search, with no limit that is felt, finds the first solution in
preorder, and nothing exactly if there is none. It asks for the branches of the nodes before that
solution, each time they occur and in their order, and tests the same nodes and the solution
itself; what it asks about a node, it asks before it comes to the next. -/
theorem resolve_first_in_preorder (hfinite : tree.FiniteBelow root) :
    ∃ height, ∀ depth ≥ height,
      let entries := tree.preorder depth root
      let found := tree.resolve depth root
      let tested := (tree.queries depth root).filterMap Query.tested?
      let expanded := (tree.queries depth root).filterMap Query.expanded?
      (∀ node, tree.Below root node →
        tree.preorder depth node = node :: (tree.branches node).flatMap (tree.preorder depth)) ∧
      found = entries.find? tree.isSolution ∧
      (found = none ↔ ∀ node ∈ entries, tree.isSolution node = false) ∧
      expanded = entries.takeWhile (!tree.isSolution ·) ∧
      tested = expanded ++ found.toList ∧
      (∃ behind, entries = tested ++ behind ∧ (found = none → behind = [])) ∧
      tree.queries depth root =
        expanded.flatMap (fun node => [.isSolution node, .branches node]) ++
          found.toList.map .isSolution := by
  obtain ⟨height, hheight⟩ := hfinite.exists_within
  refine ⟨height, ?_⟩
  intro depth hdepth entries found tested expanded
  have hwithin := hheight.mono hdepth
  have hfound : found = entries.find? tree.isSolution := tree.resolve_eq_find? depth root
  have hqueries : tree.queries depth root = tree.questions entries := tree.queries_eq depth root
  have hexpanded : expanded = tree.untilSolution entries := by
    simp only [expanded]
    rw [hqueries, expanded_questions]
  have htested : tested = expanded ++ found.toList := by
    simp only [tested]
    rw [hqueries, tested_questions, hexpanded, hfound]
  refine ⟨fun node hbelow => hwithin.preorder_of_below hbelow, hfound, ?_, hexpanded, htested,
    ?_, ?_⟩
  · simp [hfound]
  · rw [htested, hexpanded, hfound]
    exact tree.exists_eq_untilSolution_append entries
  · rw [hqueries, questions, hexpanded, hfound]

end SearchTree

/-- The search leaves all that is below a node behind, some of it more than once, before it finds
the solution beside it, and does not look at the branches of the solution. -/
theorem halving_first_in_preorder :
    ∃ height, ∀ depth ≥ height,
      halving.resolve depth 5 = some 4 ∧
        (halving.queries depth 5).filterMap Query.expanded? = [5, 2, 1, 0, 0, 1, 0, 0] ∧
        (halving.queries depth 5).filterMap Query.tested? = [5, 2, 1, 0, 0, 1, 0, 0, 4] := by
  have hwithin : halving.Within 6 5 := by simp [SearchTree.Within, halving]
  obtain ⟨height, h⟩ := SearchTree.resolve_first_in_preorder hwithin.finiteBelow
  refine ⟨max height 6, ?_⟩
  intro depth hdepth
  obtain ⟨_, hfound, _, hexpanded, htested, _⟩ := h depth (by omega)
  rw [hwithin.preorder_eq (by omega)] at hfound hexpanded
  have hsolution : halving.resolve depth 5 = some 4 := hfound.trans (by decide)
  have hbefore := hexpanded.trans (show _ = [5, 2, 1, 0, 0, 1, 0, 0] by decide)
  rw [htested, hbefore, hsolution]
  exact ⟨rfl, rfl, rfl⟩

end QueensPuzzle.Search
