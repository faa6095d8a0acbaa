import QueensPuzzle.Proofs.Search.Coverage

/-! # Searching a graph that is a tree

Where no place is the neighbor of two others, or twice of one, a best-first search meets every
place once. Each neighbor that it takes in gets a record of its own, so there is one record for the
start and one for each neighbor that was handed out, and nothing is ever replaced. What the search
holds is the part of the tree that has grown so far.
-/

namespace QueensPuzzle.Search

variable {Node Key Cost : Type}

/-- Every place in reach except the start is the neighbor of one place only, and once. -/
structure CostGraph.IsTree (g : CostGraph Node Key Cost) (start : Node) : Prop where
  keys_nodup : ∀ a, g.Reachable start a → ((g.neighbors a).map g.key).Nodup
  key_parent_eq : ∀ a b, g.Reachable start a → g.Reachable start b →
    ∀ c ∈ g.neighbors a, ∀ d ∈ g.neighbors b, g.key c = g.key d → g.key a = g.key b
  key_ne_start : ∀ a, g.Reachable start a → ∀ c ∈ g.neighbors a, g.key c ≠ g.key start

namespace Exploration

variable [BEq Key] [LawfulBEq Key] [Hashable Key] [Add Cost] [Ord Cost]
  {g : CostGraph Node Key Cost} {start : Node} {x y : Exploration Node Key Cost} {source : Nat}
  {origin : Record Node Cost}

/-! ## Keys that are new -/

/-- Discoveries make no other key known than those of the nodes that are taken in. -/
theorem slots_foldl_discover_eq_none {key : Key} {nodes : List Node}
    (hnew : x.slots[key]? = none) (hkey : key ∉ nodes.map g.key) :
    (nodes.foldl (discover g source origin) x).slots[key]? = none := by
  induction nodes generalizing x with
  | nil => exact hnew
  | cons node nodes ih =>
      rw [List.map_cons, List.mem_cons, not_or] at hkey
      apply ih _ hkey.2
      rcases discover_cases g source origin x node with
        ⟨_, heq⟩ | ⟨_, _, _, _, _, _, heq⟩ | ⟨_, _, _, heq⟩
      · have hother : ¬(g.key node == key) = true := by simpa using Ne.symm hkey.1
        rw [heq, Std.HashMap.getElem?_insert, if_neg hother]
        exact hnew
      · rw [heq]
        exact hnew
      · rw [heq]
        exact hnew

omit [LawfulBEq Key] in
theorem discover_of_slots_eq_none {node : Node} (hnew : x.slots[g.key node]? = none) :
    (discover g source origin x node).records = x.records.push (offer g source origin x.stamp node) ∧
      (discover g source origin x node).stamp = x.stamp + 1 := by
  rcases discover_cases g source origin x node with
    ⟨_, heq⟩ | ⟨slot, _, hslot, _, _, _, _⟩ | ⟨slot, hslot, _, _⟩
  · rw [heq]
    exact ⟨rfl, rfl⟩
  · rw [hnew] at hslot
    cases hslot
  · rw [hnew] at hslot
    cases hslot

/-- Nodes with new keys, all of them different, get a record each, in their order and with stamps
that count on. -/
theorem records_foldl_discover {nodes : List Node} (hkeys : (nodes.map g.key).Nodup)
    (hnew : ∀ node ∈ nodes, x.slots[g.key node]? = none) :
    (nodes.foldl (discover g source origin) x).records.toList =
      x.records.toList ++ nodes.mapIdx fun i node => offer g source origin (x.stamp + i) node := by
  induction nodes generalizing x with
  | nil => simp
  | cons node nodes ih =>
      rw [List.map_cons, List.nodup_cons] at hkeys
      rw [List.forall_mem_cons] at hnew
      have hrest : ∀ other ∈ nodes,
          (discover g source origin x node).slots[g.key other]? = none := by
        intro other hother
        have hdistinct : g.key other ∉ [node].map g.key := by
          intro hmem
          rw [List.map_singleton, List.mem_singleton] at hmem
          exact hkeys.1 (hmem ▸ List.mem_map_of_mem hother)
        change ([node].foldl (discover g source origin) x).slots[g.key other]? = none
        exact slots_foldl_discover_eq_none (hnew.2 other hother) hdistinct
      obtain ⟨hrecords, hstamp⟩ :
          (discover g source origin x node).records = _ ∧ _ := discover_of_slots_eq_none hnew.1
      rw [List.foldl_cons, ih hkeys.2 hrest, hrecords, hstamp, Array.toList_push, List.mapIdx_cons,
        List.append_assoc, List.singleton_append]
      simp only [Nat.add_zero, Nat.add_assoc, Nat.add_comm 1]

section Tree

variable [Inhabited Cost] {slot : Nat} {record : Record Node Cost}

omit [LawfulBEq Key] [Ord Cost] in
/-- In a tree the neighbors of an open record are new: any record with the key of one of them would
have been reached from a closed record, which would then be the parent as well. -/
theorem Sound.slots_eq_none (hx : Sound g start x) (hreachable : ∀ (i : Nat)
    (other : Record Node Cost), x.records[i]? = some other → g.Reachable start other.node)
    (htree : g.IsTree start) (hrecord : x.records[slot]? = some record)
    (hopen : record.closed = false) {node : Node} (hnode : node ∈ g.neighbors record.node) :
    x.slots[g.key node]? = none := by
  have hreach := hreachable slot record hrecord
  cases hslot : x.slots[g.key node]? with
  | none => rfl
  | some i =>
      obtain ⟨known, hknown, hkey⟩ := (hx.indexed _ _).mp hslot
      have hrooted := hx.rooted i known hknown
      unfold Rooted at hrooted
      cases hprevious : known.previous with
      | none =>
          simp only [hprevious] at hrooted
          rw [hrooted.1] at hkey
          exact absurd hkey.symm (htree.key_ne_start record.node hreach node hnode)
      | some j =>
          simp only [hprevious] at hrooted
          obtain ⟨parent, hparent, hfollows⟩ := hrooted
          have hparents := htree.key_parent_eq _ _ (hreachable j parent hparent) hreach _
            hfollows.neighbor _ hnode hkey
          obtain rfl := hx.indexed.slot_unique hparent hrecord hparents
          rw [hrecord] at hparent
          cases hparent
          rw [hfollows.closed] at hopen
          cases hopen

/-! ## From expansion to expansion -/

/-- The search from `start` after so many expansions. -/
inductive After (g : CostGraph Node Key Cost) (start : Node) :
    Nat → Exploration Node Key Cost → Prop
  | start : After g start 0 (Exploration.start g start)
  | step {count : Nat} {x y : Exploration Node Key Cost} (h : After g start count x)
      (hstep : x.step g = .expanded y) : After g start (count + 1) y

namespace After

variable {count : Nat}

omit [LawfulBEq Key] in
theorem size_expansions (h : After g start count x) : x.expansions.size = count := by
  induction h with
  | start => rfl
  | step _ hstep ih => rw [size_expansions_step hstep, ih]

theorem sound (h : After g start count x) : Sound g start x := by
  induction h with
  | start => exact sound_start g start
  | step _ hstep ih => exact ih.step hstep

variable [Std.ReflOrd Cost]

theorem covering (h : After g start count x) : Covering g start x := by
  induction h with
  | start => exact covering_start g start
  | step _ hstep ih => exact ih.step hstep

/-- When its turn comes to be taken in, each neighbor of a record that is expanded is new. -/
theorem slots_eq_none (h : After g start count x) (htree : g.IsTree start)
    (hrecord : x.records[slot]? = some record) (hopen : record.closed = false)
    (rest : Queue (Entry Cost)) {before behind : List Node} {node : Node}
    (hneighbors : g.neighbors record.node = before ++ node :: behind) :
    (before.foldl (discover g slot record.close) (x.select slot record rest)).slots[g.key node]? =
      none := by
  have hreachable := h.covering.live.reachable
  apply slots_foldl_discover_eq_none
  · exact h.sound.slots_eq_none hreachable htree hrecord hopen (by simp [hneighbors])
  · have hkeys := htree.keys_nodup record.node (hreachable slot record hrecord)
    rw [hneighbors, List.map_append, List.map_cons, List.nodup_append] at hkeys
    intro hmem
    exact hkeys.2.2 _ hmem _ List.mem_cons_self rfl

/-- An expansion closes one record and adds one for each neighbor. -/
theorem records_expand (h : After g start count x) (htree : g.IsTree start)
    (hrecord : x.records[slot]? = some record) (hopen : record.closed = false)
    (rest : Queue (Entry Cost)) :
    ((x.select slot record rest).expand g slot record.close).records.toList =
      (x.records.setIfInBounds slot record.close).toList ++
        (g.neighbors record.node).mapIdx fun i node =>
          offer g slot record.close (x.stamp + i) node := by
  have hreachable := h.covering.live.reachable
  have hkeys := htree.keys_nodup record.node (hreachable slot record hrecord)
  have hnew : ∀ node ∈ g.neighbors record.node,
      (x.select slot record rest).slots[g.key node]? = none :=
    fun node hnode => h.sound.slots_eq_none hreachable htree hrecord hopen hnode
  exact records_foldl_discover hkeys hnew

/-- There is a record for the start and one for each neighbor that was taken in. -/
theorem size_records (h : After g start count x) (htree : g.IsTree start) :
    x.records.size = 1 + (x.expansions.toList.map fun expansion =>
      (g.neighbors expansion.node).length).sum := by
  induction h with
  | start => rfl
  | @step count x y h hstep ih =>
      obtain ⟨slot, record, rest, _, hrecord, hopen, _, rfl⟩ := of_step_eq_expanded hstep
      have hgrown := congrArg List.length (h.records_expand htree hrecord hopen rest)
      rw [List.length_append, List.length_mapIdx, Array.length_toList, Array.length_toList,
        Array.size_setIfInBounds] at hgrown
      have hexpansions : ((x.select slot record rest).expand g slot record.close).expansions =
          x.expansions.push ⟨slot, record.node, _⟩ := expansions_expand _ _ _
      rw [hgrown, ih, hexpansions]
      simp only [Array.toList_push, List.map_append, List.map_cons, List.map_nil, List.sum_append,
        List.sum_singleton]
      omega

theorem keys_expansions_nodup (h : After g start count x) :
    (x.expansions.toList.map fun expansion => g.key expansion.node).Nodup := by
  have hcovering := h.covering
  have hkeys := hcovering.logged.keys_nodup hcovering.live.indexed
  rw [hcovering.logged.tests_eq, List.map_map] at hkeys
  exact hkeys

theorem reachable_of_mem_expansions (h : After g start count x) {expansion : Expansion Node}
    (hmem : expansion ∈ x.expansions.toList) : g.Reachable start expansion.node := by
  have hcovering := h.covering
  obtain ⟨record, hrecord, _, hnode⟩ := hcovering.logged.expanded hmem
  rw [← hnode]
  exact hcovering.live.reachable _ record hrecord

end After

end Tree

end Exploration

/-- A search that is not cut off ends behind some number of expansions, which it notes. -/
theorem CostGraph.exists_after_of_search [BEq Key] [LawfulBEq Key] [Hashable Key] [Add Cost]
    [Ord Cost] [Inhabited Cost] {g : CostGraph Node Key Cost} {start : Node} {limit : Nat}
    (h : (g.search limit start).verdict ≠ .cutOff) :
    ∃ count x, Exploration.After g start count x ∧ x.step g = .ended (g.search limit start) ∧
      (g.search limit start).expansions = x.expansions := by
  have hkept : ∀ x y : Exploration Node Key Cost, (∃ count, Exploration.After g start count x) →
      x.step g = .expanded y → ∃ count, Exploration.After g start count y := by
    rintro x y ⟨count, hx⟩ hstep
    exact ⟨count + 1, hx.step hstep⟩
  obtain ⟨x, ⟨count, hx⟩, hend⟩ := run_ends hkept ⟨0, .start⟩ limit
  change x.step g = .ended (g.search limit start) ∨ g.search limit start = _ ∧ _ at hend
  rcases hend with hended | ⟨hcut, _⟩
  · refine ⟨count, x, hx, hended, ?_⟩
    rcases Exploration.of_step_eq_ended hended with ⟨_, heq⟩ | ⟨_, _, _, _, _, _, _, heq⟩
    · rw [heq]
    · rw [heq]
  · rw [hcut] at h
    exact absurd rfl h

end QueensPuzzle.Search
