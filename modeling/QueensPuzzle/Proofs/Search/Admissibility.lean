import QueensPuzzle.Proofs.Search.Optimality

/-! # Estimates that never exceed the cost to come

Such an estimate may still fall by more than the distance along an edge. A record can then be
closed before the cheapest way to its node is found, and as closed records are left alone, the
search lets that way go. This is all that keeps its path from being shortest: the path costs no
more than any walk to a goal on which nothing was let go, and a way from one node to the next is
let go only if the second was expanded first.
-/

namespace QueensPuzzle.Search

variable {Node Key : Type}

/-- The estimate is not negative, and no walk to a goal costs less than it. -/
structure CostGraph.Admissible (g : CostGraph Node Key Int) (start : Node) : Prop where
  nonneg : ∀ node, g.Reachable start node → 0 ≤ g.estimate node
  le_cost : ∀ node goal walk, g.Reachable start node → g.isGoal goal = true →
    g.IsWalk node goal walk → g.estimate node ≤ g.costAlong 0 walk

/-- Both nodes have closed records, and the way over the first, which is no goal, would have
been cheaper for the second. -/
def LetGo (g : CostGraph Node Key Int) (records : Array (Record Node Int)) (a b : Node) : Prop :=
  g.isGoal a = false ∧ ∃ (i j : Nat) (near far : Record Node Int),
    records[i]? = some near ∧ near.closed = true ∧ near.node = a ∧
      records[j]? = some far ∧ far.closed = true ∧ far.node = b ∧
      near.cost + g.distance a b < far.cost

namespace Exploration

variable [BEq Key] [Hashable Key] {g : CostGraph Node Key Int} {start : Node}
  {x y : Exploration Node Key Int}

/-- What holds of a search between two selections, whatever the estimate: a neighbor of a closed
record is known at no more than the cost over the record, unless it is the node of the record or
was expanded before it. -/
structure Relaxed (g : CostGraph Node Key Int) (start : Node) (x : Exploration Node Key Int) :
    Prop where
  covering : Covering g start x
  ordered : x.queue.Ordered Entry.before
  priced : Priced g x
  start_known : x.Known start 0
  known_or : ∀ (slot : Nat) (record : Record Node Int), x.records[slot]? = some record →
    record.closed = true → ∀ node ∈ g.neighbors record.node,
      x.Known node (record.cost + g.distance record.node node) ∨ node = record.node ∨
        [node, record.node].Sublist (x.expansions.toList.map (·.node))

theorem Relaxed.scheduled (hx : Relaxed g start x) : Scheduled g start x :=
  ⟨hx.covering.live, hx.ordered⟩

theorem relaxed_start [LawfulBEq Key] (g : CostGraph Node Key Int) (start : Node) :
    Relaxed g start (Exploration.start g start) := by
  have hstart := settled_start g start
  refine ⟨hstart.covering, hstart.ordered, hstart.leveled.priced, hstart.start_known, ?_⟩
  intro slot record hrecord hclosed node hnode
  exact .inl (hstart.relaxed slot record hrecord hclosed node hnode)

/-- What was closed before a selection was expanded before it. -/
theorem Logged.sublist_push (hx : Logged x) {slot : Nat} {record : Record Node Int}
    (hrecord : x.records[slot]? = some record) (hclosed : record.closed = true) (last : Node) :
    [record.node, last].Sublist (x.expansions.toList.map (·.node) ++ [last]) := by
  obtain ⟨expansion, hmem, _, hnode⟩ :=
    (hx.closed_iff slot record.node).mp ⟨record, hrecord, hclosed, rfl⟩
  have hfirst : [record.node].Sublist (x.expansions.toList.map (·.node)) := by
    rw [List.singleton_sublist, ← hnode]
    exact List.mem_map_of_mem hmem
  exact hfirst.append (.refl [last])

theorem Relaxed.step [LawfulBEq Key] (hinj : Set.InjOn g.key {node | g.Reachable start node})
    (hx : Relaxed g start x) (h : x.step g = .expanded y) : Relaxed g start y := by
  have hcovering := hx.covering.step h
  have hordered := (hx.scheduled.step h).ordered
  obtain ⟨slot, record, rest, hpop, hrecord, hopen, _, rfl⟩ := of_step_eq_expanded h
  have hreach : g.Reachable start record.close.node :=
    hx.covering.live.reachable slot record hrecord
  obtain ⟨hpriced, hkept, hall⟩ :=
    foldl_discover_known_or_closed slot (hx.covering.live.select hpop hrecord)
      (hx.priced.select hrecord rest) hinj hreach (fun _ hnode => hnode)
  have hknown : ∀ node cost, x.Known node cost →
      ((x.select slot record rest).expand g slot record.close).Known node cost := by
    intro node cost hold
    exact hkept node cost (hold.select hrecord rest)
  have hexpansions : ((x.select slot record rest).expand g slot record.close).expansions =
      x.expansions.push ⟨slot, record.node, _⟩ := expansions_expand _ _ _
  refine ⟨hcovering, hordered, hpriced, hknown start 0 hx.start_known, ?_⟩
  intro i other hother hclosed node hnode
  rw [hexpansions, Array.toList_push, List.map_append]
  rcases (closed_expand_iff hrecord hopen rest hclosed).mp hother with ⟨_, rfl⟩ | hold
  · -- A neighbor of the record that was selected is the record itself or was closed before.
    rcases hall node hnode with hnow | ⟨j, twin, htwin, rfl, hc⟩
    · exact .inl hnow
    · rcases (closed_select_iff hrecord hopen rest hc).mp htwin with ⟨_, rfl⟩ | hbefore
      · exact .inr (.inl rfl)
      · exact .inr (.inr (hx.covering.logged.sublist_push hbefore hc record.node))
  · rcases hx.known_or i other hold hclosed node hnode with hnow | rfl | hearlier
    · exact .inl (hknown node _ hnow)
    · exact .inr (.inl rfl)
    · exact .inr (.inr (hearlier.trans (List.sublist_append_left _ _)))

/-- A neighbor that was expanded before is known at no more than the cost over the closed record
as well, unless this way was let go. -/
theorem Relaxed.known_of_not_letGo (hx : Relaxed g start x) {slot : Nat} {record : Record Node Int}
    (hrecord : x.records[slot]? = some record) (hclosed : record.closed = true) {node : Node}
    (hnode : node ∈ g.neighbors record.node) (hkept : ¬LetGo g x.records record.node node) :
    x.Known node (record.cost + g.distance record.node node) := by
  have hcheap : ∀ (j : Nat) (other : Record Node Int), x.records[j]? = some other →
      other.closed = true → other.node = node →
      x.Known node (record.cost + g.distance record.node node) := by
    intro j other hother hc hsame
    refine ⟨j, other, hother, hsame, Int.not_lt.mp ?_⟩
    intro hless
    exact hkept ⟨hx.covering.not_goal slot record hrecord hclosed, slot, j, record, other, hrecord,
      hclosed, rfl, hother, hc, hsame, hless⟩
  rcases hx.known_or slot record hrecord hclosed node hnode with hknown | rfl | hearlier
  · exact hknown
  · exact hcheap slot record hrecord hclosed rfl
  · have hmem : node ∈ x.expansions.toList.map (·.node) := hearlier.subset List.mem_cons_self
    obtain ⟨expansion, hexpansion, rfl⟩ := List.mem_map.mp hmem
    obtain ⟨other, hother, hc, hsame⟩ := hx.covering.logged.expanded hexpansion
    exact hcheap _ other hother hc hsame

/-- Along any walk to a goal on which nothing was let go there is an open record with a priority
that is no higher than the cost of the walk. -/
theorem Relaxed.exists_open (hest : g.Admissible start) (hx : Relaxed g start x) {goal : Node}
    (hgoal : g.isGoal goal = true) {walk : List Node} (hwalk : g.IsWalk start goal walk)
    (hkept : walk.IsChain fun a b => ¬LetGo g x.records a b) :
    ∃ (slot : Nat) (record : Record Node Int), x.records[slot]? = some record ∧
      record.closed = false ∧ record.priority ≤ g.costAlong 0 walk := by
  refine hx.covering.exists_open hx.priced hgoal ?_ hx.start_known hwalk (hkept.imp ?_)
  · intro node other hreach hother
    exact hest.le_cost node goal other hreach hgoal hother
  · rintro _ b hnot hb slot record hrecord hclosed rfl
    exact hx.known_of_not_letGo hrecord hclosed hb hnot

/-! ## The selection of the goal -/

section Goal

variable {slot : Nat} {goal : Record Node Int} {a b : Node}

theorem letGo_select (h : LetGo g x.records a b) (hrecord : x.records[slot]? = some goal)
    (hopen : goal.closed = false) (rest : Queue (Entry Int)) :
    LetGo g (x.select slot goal rest).records a b := by
  obtain ⟨hgoal, i, j, near, far, hnear, hnearClosed, rfl, hfar, hfarClosed, rfl, hless⟩ := h
  have hnearKept := (closed_select_iff hrecord hopen rest hnearClosed).mpr (.inr hnear)
  have hfarKept := (closed_select_iff hrecord hopen rest hfarClosed).mpr (.inr hfar)
  exact ⟨hgoal, i, j, near, far, hnearKept, hnearClosed, rfl, hfarKept, hfarClosed, rfl, hless⟩

theorem Relaxed.sublist_of_letGo (hx : Relaxed g start x) (hrecord : x.records[slot]? = some goal)
    (hopen : goal.closed = false) (hgoal : g.isGoal goal.node = true) {rest : Queue (Entry Int)}
    (hb : b ∈ g.neighbors a) (hdistance : 0 ≤ g.distance a b)
    (h : LetGo g (x.select slot goal rest).records a b) :
    [b, a].Sublist (x.expansions.toList.map (·.node)) := by
  obtain ⟨hnot, i, j, near, far, hnear, hnearClosed, rfl, hfar, hfarClosed, rfl, hless⟩ := h
  have hindexed := hx.covering.live.indexed.select hrecord rest
  have hbefore : x.records[i]? = some near := by
    rcases (closed_select_iff hrecord hopen rest hnearClosed).mp hnear with ⟨_, rfl⟩ | hbefore
    · rw [Record.node_close, hgoal] at hnot
      cases hnot
    · exact hbefore
  rcases hx.known_or i near hbefore hnearClosed far.node hb with hknown | hsame | hearlier
  · obtain ⟨k, twin, htwin, hnode, hcost⟩ := hknown.select hrecord rest
    rw [hindexed.slot_unique htwin hfar (congrArg g.key hnode), hfar] at htwin
    cases htwin
    omega
  · rw [hindexed.slot_unique hfar hnear (congrArg g.key hsame), hnear] at hfar
    cases hfar
    omega
  · exact hearlier

end Goal

end Exploration

/-- The path that a search finds costs no more than any walk from the start to a goal on which
nothing was let go. A way from a node to the next is let go only if the next was expanded
before it. -/
theorem CostGraph.path_le_of_admissible [BEq Key] [LawfulBEq Key] [Hashable Key]
    {g : CostGraph Node Key Int} {start : Node} {limit : Nat} (hest : g.Admissible start)
    (hinj : Set.InjOn g.key {node | g.Reachable start node})
    (hpath : (g.search limit start).path ≠ []) :
    ∃ records slot, (g.search limit start).verdict = .reached records slot ∧
      (∃ goal, g.isGoal goal = true ∧ g.IsWalk start goal (g.search limit start).path) ∧
      (∀ goal walk, g.isGoal goal = true → g.IsWalk start goal walk →
        (walk.IsChain fun a b => ¬LetGo g records a b) →
        g.costAlong 0 (g.search limit start).path ≤ g.costAlong 0 walk) ∧
      ∀ a b, b ∈ g.neighbors a → 0 ≤ g.distance a b → LetGo g records a b →
        [b, a].Sublist (g.search limit start).expanded := by
  obtain ⟨records, slot, hverdict⟩ := path_ne_nil_iff.mp hpath
  obtain ⟨last, hlast, hgoal, _, hroute⟩ := isRoute_of_reached hverdict
  obtain ⟨x, record, rest, hx, hpop, hrecord, hopen, hisGoal, heq⟩ :=
    exists_selection_of_reached (fun _ _ hx hstep => hx.step hinj hstep)
      (Exploration.relaxed_start g start) hverdict
  obtain rfl : (x.select slot record rest).records = records := by
    rw [heq] at hverdict
    exact (Verdict.reached.inj hverdict).1
  obtain rfl : record.close = last := by
    simpa [Exploration.select, Exploration.getElem?_replace hrecord] using hlast
  refine ⟨_, slot, hverdict, ⟨record.node, hgoal, hroute.head_eq, hroute.linked, hroute.last_eq⟩,
    ?_, ?_⟩
  · intro goal walk hend hwalk hkept
    have hbefore : walk.IsChain fun a b => ¬LetGo g x.records a b :=
      hkept.imp fun a b hnot hletGo => hnot (Exploration.letGo_select hletGo hrecord hopen rest)
    obtain ⟨i, other, hother, hstill, hle⟩ :=
      hx.exists_open hest hend hwalk hbefore
    have hcost : record.cost = g.costAlong 0 (g.search limit start).path := hroute.cost_eq
    have hpriority := hx.priced slot record hrecord
    have hestimate := hest.nonneg record.node (hx.covering.live.reachable slot record hrecord)
    have hfirst := hx.scheduled.priority_le hpop hother hstill
    omega
  · intro a b hb hdistance hletGo
    have hexpanded : (g.search limit start).expanded = x.expansions.toList.map (·.node) :=
      congrArg Outcome.expanded heq
    rw [hexpanded]
    exact hx.sublist_of_letGo hrecord hopen hisGoal hb hdistance hletGo

/-- From 0 to 3 by way of 2, which is reached over 1 or straight, at the cost `direct`. The
estimate at 1 is exact, the one at 2 is much too low. -/
def bypass (direct : Int) : CostGraph Nat Nat where
  key n := n
  isGoal n := n == 3
  distance a b := if a == 0 && b == 2 then direct else if a == 2 then 3 else 1
  estimate n := if n == 1 then 4 else 0
  neighbors n :=
    match n with
    | 0 => [1, 2]
    | 1 => [2]
    | 2 => [3]
    | _ => []

/-- Edges lead on. -/
theorem lt_of_mem_neighbors_bypass {direct : Int} {a b : Nat}
    (h : b ∈ (bypass direct).neighbors a) : a < b ∧ b < 4 := by
  match a with
  | 0 | 1 | 2 =>
      simp [bypass] at h
      omega
  | _ + 3 => simp [bypass] at h

theorem distance_nonneg_bypass {direct : Int} (h : 0 ≤ direct) (a b : Nat) :
    0 ≤ (bypass direct).distance a b := by
  simp only [bypass]
  split
  · exact h
  · split <;> omega

/-- Walks cost no less than what they start with. -/
theorem le_costAlong_bypass {direct : Int} (h : 0 ≤ direct) (cost : Int) (nodes : List Nat) :
    cost ≤ (bypass direct).costAlong cost nodes := by
  fun_induction CostGraph.costAlong (bypass direct) cost nodes with
  | case1 cost a b rest ih =>
      have hedge := distance_nonneg_bypass h a b
      omega
  | case2 cost only => exact Int.le_refl cost
  | case3 cost => exact Int.le_refl cost

theorem admissible_bypass {direct : Int} (h : 0 ≤ direct) : (bypass direct).Admissible 0 := by
  refine ⟨?_, ?_⟩
  · intro node _
    simp only [bypass]
    split <;> omega
  · intro node goal walk _ hgoal hwalk
    obtain rfl : goal = 3 := by simpa [bypass] using hgoal
    by_cases hone : node = 1
    · -- From 1 there is only one way to the goal.
      subst hone
      obtain ⟨hhead, hlinked, hlast⟩ := hwalk
      match walk, hhead with
      | [_], rfl => cases hlast
      | _ :: second :: rest, rfl =>
          rw [List.isChain_cons_cons] at hlinked
          obtain rfl : second = 2 := by simpa [bypass] using hlinked.1
          match rest with
          | [] => cases hlast
          | third :: rest =>
              obtain rfl : third = 3 := by
                simpa [bypass] using (List.isChain_cons_cons.mp hlinked.2).1
              exact le_costAlong_bypass h 4 (3 :: rest)
    · have hzero : (bypass direct).estimate node = 0 := by simp [bypass, hone]
      rw [hzero]
      exact le_costAlong_bypass h 0 walk

/-- The record of 2 is closed with the straight way, before the cheaper way over 1 comes up. -/
theorem bypass_path_not_shortest :
    Function.Injective (bypass 3).key ∧ {node | (bypass 3).Reachable 0 node}.Finite ∧
      (∀ a b, 0 ≤ (bypass 3).distance a b) ∧ (bypass 3).Admissible 0 ∧
      ((bypass 3).search 5 0).path = [0, 2, 3] ∧ (bypass 3).costAlong 0 [0, 2, 3] = 6 ∧
      (bypass 3).isGoal 3 = true ∧ (bypass 3).IsWalk 0 3 [0, 1, 2, 3] ∧
      (bypass 3).costAlong 0 [0, 1, 2, 3] = 5 := by
  refine ⟨fun _ _ h => h, ?_, distance_nonneg_bypass (by decide), admissible_bypass (by decide), ?_,
    rfl, rfl, ⟨rfl, ?_, rfl⟩, rfl⟩
  · apply (Finset.range 4).finite_toSet.subset
    intro node hnode
    refine Finset.mem_coe.mpr (Finset.mem_range.mpr ?_)
    cases hnode with
    | refl => decide
    | tail _ hb => exact (lt_of_mem_neighbors_bypass hb).2
  · simp +decide [bypass, CostGraph.search, CostGraph.run, Exploration.start, Exploration.step,
      Exploration.expand, Exploration.discover, Exploration.current, Queue.popAccepted,
      Queue.insert, Queue.merge, Queue.join, Queue.rank, Outcome.path, traceBack,
      Std.HashMap.getElem_insert]
  · simp [bypass]

/-- If the straight way is dear enough, nothing is let go: the path is shortest, even though the
estimate falls by 4 over an edge of cost 1. -/
theorem bypass_path_shortest :
    ¬(bypass 6).Consistent 0 ∧ ((bypass 6).search 5 0).path = [0, 1, 2, 3] ∧
      ∀ goal walk, (bypass 6).isGoal goal = true → (bypass 6).IsWalk 0 goal walk →
        5 ≤ (bypass 6).costAlong 0 walk := by
  have hpath : ((bypass 6).search 5 0).path = [0, 1, 2, 3] := by
    simp +decide [bypass, CostGraph.search, CostGraph.run, Exploration.start, Exploration.step,
      Exploration.expand, Exploration.discover, Exploration.current, Queue.popAccepted,
      Queue.insert, Queue.merge, Queue.join, Queue.rank, Outcome.path, traceBack]
  have hexpanded : ((bypass 6).search 5 0).expanded = [0, 1, 2] := by
    simp +decide [bypass, CostGraph.search, CostGraph.run, Exploration.start, Exploration.step,
      Exploration.expand, Exploration.discover, Exploration.current, Queue.popAccepted,
      Queue.insert, Queue.merge, Queue.join, Queue.rank, Outcome.expanded]
  refine ⟨?_, hpath, ?_⟩
  · intro hest
    have hreach : (bypass 6).Reachable 0 1 := Relation.ReflTransGen.single (by simp [bypass])
    have hedge := hest.estimate_le 1 hreach 2 (by simp [bypass])
    simp [bypass] at hedge
  · obtain ⟨records, slot, _, _, hshortest, hletGo⟩ :=
      CostGraph.path_le_of_admissible (admissible_bypass (show (0 : Int) ≤ 6 by decide))
        (fun _ _ _ _ h => h) (by rw [hpath]; simp)
    rw [hpath] at hshortest
    rw [hexpanded] at hletGo
    intro goal walk hgoal hwalk
    refine hshortest goal walk hgoal hwalk (hwalk.linked.imp ?_)
    intro a b hb hlet
    -- Nodes were expanded in their order, and edges lead on in this order.
    have hearlier := hletGo a b hb (distance_nonneg_bypass (by decide) a b) hlet
    have hsorted : [0, 1, 2].Pairwise (· < ·) := by decide
    have hless : b < a := by simpa using hsorted.sublist hearlier
    have hedge := lt_of_mem_neighbors_bypass hb
    omega

end QueensPuzzle.Search
