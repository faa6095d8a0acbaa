import Mathlib.Logic.Relation
import QueensPuzzle.Search.Walk

/-! # The eager search and the walk

Both searches go through the same list of nodes that are still to be entered: the eager one
keeps it on its recursion, the walk in the untried branches of its frames, from the frame
entered last to the root. `Explores` is the search on this list, told by itself.
-/

namespace QueensPuzzle.Search

variable {Node σ : Type}

def Query.isBranches : Query Node → Bool
  | .isSolution _ => false
  | .branches _ => true

/-- How many nodes were asked for their branches. -/
def expansionCount (asked : List (Query Node)) : Nat := asked.countP Query.isBranches

theorem expansionCount_entered (node : Node) (questions : List (Query Node)) :
    expansionCount (.isSolution node :: .branches node :: questions) =
      expansionCount questions + 1 := by
  simp [expansionCount, Query.isBranches, List.countP_cons]

namespace SearchTree

variable {tree : SearchTree Node}

/-- Every way down from the node comes to an end, so that the tree below it is finite. -/
inductive FiniteBelow (tree : SearchTree Node) : Node → Prop
  | intro (node : Node) (below : ∀ child ∈ tree.branches node, FiniteBelow tree child) :
      FiniteBelow tree node

/-- The tree from the node on has at most `depth` levels. -/
def Within (tree : SearchTree Node) : Nat → Node → Prop
  | 0, _ => False
  | depth + 1, node => ∀ child ∈ tree.branches node, tree.Within depth child

theorem Within.mono {depth more : Nat} (hle : depth ≤ more) {node : Node}
    (h : tree.Within depth node) : tree.Within more node := by
  induction depth generalizing more node with
  | zero => exact h.elim
  | succ depth ih =>
      obtain ⟨more, rfl⟩ : ∃ k, more = k + 1 := ⟨more - 1, by omega⟩
      intro child hchild
      exact ih (by omega) (h child hchild)

theorem exists_within_all {nodes : List Node}
    (h : ∀ node ∈ nodes, ∃ depth, tree.Within depth node) :
    ∃ depth, ∀ node ∈ nodes, tree.Within depth node := by
  induction nodes with
  | nil => exact ⟨0, by simp⟩
  | cons first nodes ih =>
      rw [List.forall_mem_cons] at h
      obtain ⟨d, hd⟩ := h.1
      obtain ⟨e, he⟩ := ih h.2
      refine ⟨max d e, ?_⟩
      rw [List.forall_mem_cons]
      refine ⟨hd.mono (Nat.le_max_left d e), ?_⟩
      intro node hnode
      exact (he node hnode).mono (Nat.le_max_right d e)

theorem FiniteBelow.exists_within {node : Node} (h : tree.FiniteBelow node) :
    ∃ depth, tree.Within depth node := by
  induction h with
  | intro node _ ih =>
      obtain ⟨depth, hdepth⟩ := exists_within_all ih
      exact ⟨depth + 1, hdepth⟩

/-- A search that keeps the nodes it has still to enter in a list: what it finds and what it
asks on the way. -/
inductive Explores (tree : SearchTree Node) : List Node → Option Node → List (Query Node) → Prop
  | exhausted : Explores tree [] none []
  | solved (node : Node) (rest : List Node) (h : tree.isSolution node = true) :
      Explores tree (node :: rest) (some node) [.isSolution node]
  | entered (node : Node) (rest : List Node) (found : Option Node) (asked : List (Query Node))
      (h : tree.isSolution node = false)
      (hrest : Explores tree (tree.branches node ++ rest) found asked) :
      Explores tree (node :: rest) found (.isSolution node :: .branches node :: asked)

/-- The nodes that lie below a node, with itself. -/
def Below (tree : SearchTree Node) : Node → Node → Prop :=
  Relation.ReflTransGen fun above child => child ∈ tree.branches above

theorem Explores.below_of_found {nodes : List Node} {node : Node} {asked : List (Query Node)}
    (h : tree.Explores nodes (some node) asked) :
    tree.isSolution node = true ∧ ∃ first ∈ nodes, tree.Below first node := by
  generalize hfound : some node = found at h
  induction h with
  | exhausted => cases hfound
  | solved first rest hsolution =>
      obtain rfl := Option.some.inj hfound
      exact ⟨hsolution, node, List.mem_cons_self, .refl⟩
  | entered first rest found asked hnot _ ih =>
      obtain ⟨hsolution, next, hnext, hbelow⟩ := ih hfound
      refine ⟨hsolution, ?_⟩
      rcases List.mem_append.mp hnext with hchild | hrest
      · exact ⟨first, List.mem_cons_self, hbelow.head hchild⟩
      · exact ⟨next, List.mem_cons_of_mem first hrest, hbelow⟩

theorem Explores.isSolution_of_none {nodes : List Node} {asked : List (Query Node)}
    (h : tree.Explores nodes none asked) {first node : Node} (hfirst : first ∈ nodes)
    (hbelow : tree.Below first node) : tree.isSolution node = false := by
  generalize hfound : none = found at h
  induction h generalizing first with
  | exhausted => cases hfirst
  | solved _ _ _ => cases hfound
  | entered entered rest found asked hnot _ ih =>
      rcases List.mem_cons.mp hfirst with rfl | hrest
      · rcases hbelow.cases_head with rfl | ⟨child, hchild, hbelow⟩
        · exact hnot
        · exact ih (List.mem_append_left rest hchild) hbelow hfound
      · exact ih (List.mem_append_right _ hrest) hbelow hfound

/-! ## The eager search -/

/-- The part of a search that enters `nodes` and what is below them, whatever comes behind. -/
def Visits (tree : SearchTree Node) (nodes : List Node) (asked : List (Query Node)) :
    Option Node → Prop
  | some node => ∀ rest, tree.Explores (nodes ++ rest) (some node) asked
  | none => ∀ rest found questions, tree.Explores rest found questions →
      tree.Explores (nodes ++ rest) found (asked ++ questions)

theorem Visits.append {first second : List Node} {asked questions : List (Query Node)}
    {found : Option Node} (hfirst : tree.Visits first asked none)
    (hsecond : tree.Visits second questions found) :
    tree.Visits (first ++ second) (asked ++ questions) found := by
  cases found with
  | some node =>
      intro rest
      rw [List.append_assoc]
      exact hfirst _ _ _ (hsecond rest)
  | none =>
      intro rest found more hrest
      rw [List.append_assoc, List.append_assoc]
      exact hfirst _ _ _ (hsecond rest found more hrest)

theorem Visits.append_of_found {first : List Node} {asked : List (Query Node)} {node : Node}
    (hfirst : tree.Visits first asked (some node)) (second : List Node) :
    tree.Visits (first ++ second) asked (some node) := by
  intro rest
  rw [List.append_assoc]
  exact hfirst _

theorem Visits.explores {nodes : List Node} {asked : List (Query Node)} {found : Option Node}
    (h : tree.Visits nodes asked found) : tree.Explores nodes found asked := by
  cases found with
  | some node => simpa using h []
  | none => simpa using h [] none [] .exhausted

theorem Visits.node_of_branches {node : Node} {asked : List (Query Node)} {found : Option Node}
    (hnot : tree.isSolution node = false) (h : tree.Visits (tree.branches node) asked found) :
    tree.Visits [node] (.isSolution node :: .branches node :: asked) found := by
  cases found with
  | some solution =>
      intro rest
      exact .entered node rest _ _ hnot (h rest)
  | none =>
      intro rest found questions hrest
      exact .entered node rest _ _ hnot (h rest found questions hrest)

theorem firstFound_visits {depth : Nat} {nodes : List Node}
    (h : ∀ node ∈ nodes, ∃ found asked, tree.Visits [node] asked found ∧
      ∀ (σ : Type) (note : σ → Query Node → σ) (seen : σ),
        tree.descend note depth node seen = (found, asked.foldl note seen)) :
    ∃ found asked, tree.Visits nodes asked found ∧
      ∀ (σ : Type) (note : σ → Query Node → σ) (seen : σ),
        firstFound (tree.descend note depth) nodes seen = (found, asked.foldl note seen) := by
  induction nodes with
  | nil => exact ⟨none, [], fun rest found questions hrest => hrest, fun _ _ _ => rfl⟩
  | cons first nodes ih =>
      rw [List.forall_mem_cons] at h
      obtain ⟨found, asked, hvisits, hasks⟩ := h.1
      cases found with
      | some node =>
          refine ⟨some node, asked, hvisits.append_of_found nodes, ?_⟩
          intro σ note seen
          simp only [firstFound]
          rw [hasks σ note seen]
      | none =>
          obtain ⟨found, questions, hrest, hasksrest⟩ := ih h.2
          refine ⟨found, asked ++ questions, hvisits.append hrest, ?_⟩
          intro σ note seen
          simp only [firstFound]
          rw [hasks σ note seen, List.foldl_append]
          exact hasksrest σ note _

/-- On a tree that is no deeper than the limit, the eager search is the search on the list. -/
theorem descend_visits {depth : Nat} {node : Node} (h : tree.Within depth node) :
    ∃ found asked, tree.Visits [node] asked found ∧
      ∀ (σ : Type) (note : σ → Query Node → σ) (seen : σ),
        tree.descend note depth node seen = (found, asked.foldl note seen) := by
  induction depth generalizing node with
  | zero => exact h.elim
  | succ depth ih =>
      cases hsolution : tree.isSolution node with
      | true =>
          refine ⟨some node, [.isSolution node], ?_, ?_⟩
          · intro rest
            exact .solved node rest hsolution
          · intro σ note seen
            simp [descend, hsolution]
      | false =>
          obtain ⟨found, asked, hvisits, hasks⟩ :=
            firstFound_visits fun child hchild => ih (h child hchild)
          refine ⟨found, _, hvisits.node_of_branches hsolution, ?_⟩
          intro σ note seen
          simp only [descend, hsolution, List.foldl_cons]
          exact hasks σ note _

theorem explores_queries {depth : Nat} {node : Node} (h : tree.Within depth node) :
    tree.Explores [node] (tree.resolve depth node) (tree.queries depth node) := by
  obtain ⟨found, asked, hvisits, hasks⟩ := descend_visits h
  have hfound : tree.resolve depth node = found := by
    unfold resolve
    rw [hasks Unit]
  have hasked : tree.queries depth node = asked := by
    unfold queries
    rw [hasks (Array (Query Node))]
    simp
  rw [hfound, hasked]
  exact hvisits.explores

theorem below_of_resolve_eq_some {depth : Nat} {root node : Node} (h : tree.Within depth root)
    (hfound : tree.resolve depth root = some node) :
    tree.Below root node ∧ tree.isSolution node = true := by
  have hexplores := explores_queries h
  rw [hfound] at hexplores
  obtain ⟨hsolution, first, hfirst, hbelow⟩ := hexplores.below_of_found
  rw [List.mem_singleton.mp hfirst] at hbelow
  exact ⟨hbelow, hsolution⟩

/-- On a tree that is no deeper than the limit, the eager search misses no solution. -/
theorem isSome_resolve_iff {depth : Nat} {root : Node} (h : tree.Within depth root) :
    (tree.resolve depth root).isSome = true ↔
      ∃ node, tree.Below root node ∧ tree.isSolution node = true := by
  constructor
  · intro hsome
    obtain ⟨node, hfound⟩ := Option.isSome_iff_exists.mp hsome
    exact ⟨node, below_of_resolve_eq_some h hfound⟩
  · rintro ⟨node, hbelow, hsolution⟩
    cases hfound : tree.resolve depth root with
    | some _ => rfl
    | none =>
        have hexplores := explores_queries h
        rw [hfound] at hexplores
        rw [hexplores.isSolution_of_none (List.mem_singleton_self root) hbelow] at hsolution
        cases hsolution

end SearchTree

/-! ## The walk -/

/-- The nodes still to be entered, those below the node entered last first. -/
def Trail.pending (trail : Trail Node) : List Node := trail.frames.flatMap (·.untried)

namespace SearchTree

variable {tree : SearchTree Node}

theorem enterNextOf_of_pending_nil {frames : List (Frame Node)} {depth : Nat}
    (hdepth : depth = frames.length) (h : frames.flatMap (·.untried) = [])
    (note : σ → Query Node → σ) (asked : σ) :
    tree.enterNextOf note frames depth hdepth asked = (.finished none, asked) := by
  induction frames generalizing depth with
  | nil => rfl
  | cons frame frames ih =>
      obtain ⟨node, untried⟩ := frame
      cases untried with
      | nil => exact ih _ (by simpa using h)
      | cons next untried => simp at h

/-- Frames without untried branches are left until one is found that has some. -/
theorem enterNextOf_of_pending_cons (tree : SearchTree Node) {frames : List (Frame Node)}
    {depth : Nat} (hdepth : depth = frames.length) {next : Node} {rest : List Node}
    (h : frames.flatMap (·.untried) = next :: rest) :
    ∃ trail : Trail Node, trail.pending = rest ∧
      ∀ (σ : Type) (note : σ → Query Node → σ) (asked : σ),
        tree.enterNextOf note frames depth hdepth asked = tree.enter note next trail asked := by
  induction frames generalizing depth with
  | nil => cases h
  | cons frame frames ih =>
      obtain ⟨node, untried⟩ := frame
      cases untried with
      | nil => exact ih _ (by simpa using h)
      | cons first untried =>
          simp only [List.flatMap_cons, List.cons_append, List.cons.injEq] at h
          obtain ⟨rfl, rfl⟩ := h
          exact ⟨⟨⟨node, untried⟩ :: frames, depth, hdepth⟩, rfl, fun _ _ _ => rfl⟩

end SearchTree

namespace Walk

variable {tree : SearchTree Node}

theorem runAsking_finished (note : σ → Query Node → σ) (limit : Nat) (found : Option Node)
    (advances : Nat) (asked : σ) :
    runAsking tree note limit ⟨.finished found, advances⟩ asked =
      (⟨.finished found, advances⟩, asked) := by
  cases limit <;> rfl

section Advance

variable {trail : Trail Node} {next : Node} {rest : List Node}

/-- With no node pending an advance finds nothing left. -/
theorem advance_of_pending_nil (h : trail.pending = []) (advances : Nat) :
    advance tree ⟨.searching trail, advances⟩ = .ok ⟨.finished none, advances + 1⟩ := by
  simp only [advance, advanceAsking, SearchTree.enterNext]
  rw [SearchTree.enterNextOf_of_pending_nil trail.depth_eq h]
  rfl

/-- An advance enters the first node that is pending. -/
theorem advance_of_pending_cons (tree : SearchTree Node) (h : trail.pending = next :: rest) :
    ∃ kept : Trail Node, kept.pending = rest ∧ ∀ advances,
      advance tree ⟨.searching trail, advances⟩ =
        .ok ⟨(tree.enter (fun _ _ => ()) next kept ()).1, advances + 1⟩ := by
  obtain ⟨kept, hkept, henter⟩ :=
    SearchTree.enterNextOf_of_pending_cons tree trail.depth_eq h
  refine ⟨kept, hkept, ?_⟩
  intro advances
  simp only [advance, advanceAsking, SearchTree.enterNext]
  rw [henter]
  rfl

theorem advance_of_solution (h : trail.pending = next :: rest)
    (hsolution : tree.isSolution next = true) (advances : Nat) :
    advance tree ⟨.searching trail, advances⟩ = .ok ⟨.finished (some next), advances + 1⟩ := by
  obtain ⟨kept, _, hadvance⟩ := advance_of_pending_cons tree h
  rw [hadvance, SearchTree.enter, if_pos hsolution]

theorem advance_of_not_solution (h : trail.pending = next :: rest)
    (hnot : tree.isSolution next = false) :
    ∃ kept : Trail Node, kept.pending = rest ∧ ∀ advances,
      advance tree ⟨.searching trail, advances⟩ =
        .ok ⟨.searching (kept.push ⟨next, tree.branches next⟩), advances + 1⟩ := by
  obtain ⟨kept, hkept, hadvance⟩ := advance_of_pending_cons tree h
  refine ⟨kept, hkept, ?_⟩
  intro advances
  rw [hadvance, SearchTree.enter, if_neg (ne_true_of_eq_false hnot)]

/-- What an advance asks can be read off the walk that it leads to. -/
theorem advanceAsking_eq (walk : Walk Node) (note : σ → Query Node → σ) (asked : σ) :
    walk.advanceAsking tree note asked =
      (walk.advance tree).map fun next => (next, next.queries.foldl note asked) := by
  obtain ⟨phase, advances⟩ := walk
  cases phase with
  | finished found => rfl
  | searching trail =>
      simp only [advance, advanceAsking, SearchTree.enterNext, Except.map]
      cases hpending : trail.pending with
      | nil =>
          rw [SearchTree.enterNextOf_of_pending_nil trail.depth_eq hpending,
            SearchTree.enterNextOf_of_pending_nil trail.depth_eq hpending]
          rfl
      | cons next rest =>
          obtain ⟨kept, _, henter⟩ :=
            SearchTree.enterNextOf_of_pending_cons tree trail.depth_eq hpending
          rw [henter, henter]
          cases hsolution : tree.isSolution next <;>
            simp [SearchTree.enter, hsolution, queries]

theorem runAsking_of_advance {walk next : Walk Node} (h : walk.advance tree = .ok next)
    (note : σ → Query Node → σ) (limit : Nat) (asked : σ) :
    walk.runAsking tree note (limit + 1) asked =
      next.runAsking tree note limit (next.queries.foldl note asked) := by
  rw [runAsking, advanceAsking_eq, h]
  rfl

end Advance

/-- A walk takes one advance for each node that it expands and one more, with which it comes
to a solution or finds nothing left. -/
theorem runAsking_eq_of_explores {nodes : List Node} {found : Option Node}
    {questions : List (Query Node)} (h : tree.Explores nodes found questions)
    {trail : Trail Node} (hpending : trail.pending = nodes) {limit : Nat}
    (hlimit : expansionCount questions < limit) (advances : Nat) (note : σ → Query Node → σ)
    (asked : σ) :
    runAsking tree note limit ⟨.searching trail, advances⟩ asked =
      (⟨.finished found, advances + expansionCount questions + 1⟩, questions.foldl note asked) := by
  -- One advance for each case of `Explores`: it enters the first node that is pending.
  obtain ⟨limit, rfl⟩ : ∃ k, limit = k + 1 := ⟨limit - 1, by omega⟩
  induction h generalizing trail limit advances asked with
  | exhausted =>
      rw [runAsking_of_advance (advance_of_pending_nil hpending advances)]
      exact runAsking_finished note limit none (advances + 1) asked
  | solved node rest hsolution =>
      rw [runAsking_of_advance (advance_of_solution hpending hsolution advances)]
      exact runAsking_finished note limit (some node) (advances + 1) _
  | entered node rest found questions hnot _ ih =>
      obtain ⟨kept, hkept, hadvance⟩ := advance_of_not_solution hpending hnot
      rw [expansionCount_entered] at hlimit ⊢
      have hpush : (kept.push ⟨node, tree.branches node⟩).pending =
          tree.branches node ++ rest := by
        rw [← hkept]
        rfl
      obtain ⟨limit, rfl⟩ : ∃ k, limit = k + 1 := ⟨limit - 1, by omega⟩
      have hrun := ih hpush (advances + 1) (note (note asked (.isSolution node)) (.branches node))
        limit (by omega)
      have hadvances : advances + (expansionCount questions + 1) + 1 =
          advances + 1 + expansionCount questions + 1 := by omega
      rw [runAsking_of_advance (hadvance advances), hadvances]
      exact hrun

end Walk

namespace SearchTree

variable {tree : SearchTree Node}

theorem walkAsking_eq_of_explores {root : Node} {found : Option Node}
    {questions : List (Query Node)} (h : tree.Explores [root] found questions) {limit : Nat}
    (hlimit : expansionCount questions ≤ limit) (note : σ → Query Node → σ) (asked : σ) :
    let first := tree.walkAsking note root asked
    first.1.runAsking tree note limit first.2 =
      (⟨.finished found, expansionCount questions⟩, questions.foldl note asked) := by
  intro first
  cases h with
  | solved _ _ hsolution =>
      simp only [first, walkAsking, enter, hsolution]
      exact Walk.runAsking_finished note limit (some root) 0 _
  | entered _ _ _ questions hnot hrest =>
      rw [expansionCount_entered] at hlimit ⊢
      have hpush : (Trail.empty.push ⟨root, tree.branches root⟩).pending =
          tree.branches root ++ [] := rfl
      simp only [first, walkAsking, enter, hnot, Bool.false_eq_true, if_false]
      rw [Walk.runAsking_eq_of_explores hrest hpush (by omega), List.foldl_cons, List.foldl_cons]
      simp

/-- On a finite tree the walk comes to its end. It has then found what the eager search finds,
has asked the same questions in the same order, and has advanced once for every node that was
asked for its branches. -/
theorem walk_follows_descend {root : Node} (hfinite : tree.FiniteBelow root) :
    ∃ height, ∀ depth ≥ height, ∀ limit ≥ expansionCount (tree.queries depth root),
      let first := tree.walkAsking Array.push root #[]
      let last := first.1.runAsking tree Array.push limit first.2
      (tree.walk root).run tree limit = last.1 ∧ last.1.isFinal = true ∧
        last.1.solution = tree.resolve depth root ∧
        last.2.toList = tree.queries depth root ∧
        last.1.advances = expansionCount (tree.queries depth root) := by
  obtain ⟨height, hheight⟩ := hfinite.exists_within
  refine ⟨height, ?_⟩
  intro depth hdepth limit hlimit first last
  have hexplores := explores_queries (hheight.mono hdepth)
  have hlast : last = _ := walkAsking_eq_of_explores hexplores hlimit Array.push #[]
  have hrun := walkAsking_eq_of_explores hexplores hlimit (fun _ _ => ()) ()
  rw [hlast]
  refine ⟨congrArg Prod.fst hrun, rfl, rfl, ?_, rfl⟩
  simp

end SearchTree

/-- A tree in which nodes occur again and again. -/
def halving : SearchTree Nat where
  isSolution n := n == 4
  branches n := if n = 0 then [] else [n / 2, n - 1]

theorem halving_walk_follows_descend :
    ∃ height, ∀ depth ≥ height, ∀ limit ≥ expansionCount (halving.queries depth 5),
      ((halving.walk 5).run halving limit).solution = halving.resolve depth 5 := by
  have hall : ∀ n, halving.FiniteBelow n := by
    intro n
    induction n using Nat.strongRecOn with
    | ind n ih =>
        refine .intro n ?_
        intro child hchild
        by_cases hn : n = 0
        · simp [halving, hn] at hchild
        · simp only [halving, hn, if_false, List.mem_cons, List.not_mem_nil, or_false] at hchild
          exact ih child (by omega)
  obtain ⟨height, h⟩ := SearchTree.walk_follows_descend (hall 5)
  refine ⟨height, ?_⟩
  intro depth hdepth limit hlimit
  obtain ⟨hrun, _, hsolution, _⟩ := h depth hdepth limit hlimit
  rw [hrun]
  exact hsolution

end QueensPuzzle.Search
