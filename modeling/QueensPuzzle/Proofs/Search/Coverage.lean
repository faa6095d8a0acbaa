import Mathlib.Data.Set.Card
import Mathlib.Logic.Relation
import QueensPuzzle.Proofs.Search.Route

/-! # What a search covers

An open record always has an entry in the queue that is not outdated, so a queue without
such entries means that every record is closed. The neighbors of closed records have records
themselves, and a search that is exhausted has therefore closed every key in reach. Every
selection closes a further key, which bounds the number of selections.
-/

namespace QueensPuzzle.Search

variable {Node Key Cost : Type}

namespace CostGraph

/-- The nodes that can be reached from `start` over neighbors. -/
def Reachable (g : CostGraph Node Key Cost) (start : Node) : Node → Prop :=
  Relation.ReflTransGen (fun a b => b ∈ g.neighbors a) start

def reachableKeys (g : CostGraph Node Key Cost) (start : Node) : Set Key :=
  {key | ∃ node, g.Reachable start node ∧ g.key node = key}

/-- Nodes in reach with different keys are no more than there are keys in reach. -/
theorem length_le_ncard {g : CostGraph Node Key Cost} {start : Node} {nodes : List Node}
    (hfinite : (g.reachableKeys start).Finite) (hnodup : (nodes.map g.key).Nodup)
    (hreach : ∀ node ∈ nodes, g.Reachable start node) :
    nodes.length ≤ (g.reachableKeys start).ncard := by
  classical
  have hsub : ((nodes.map g.key).toFinset : Set Key) ⊆ g.reachableKeys start := by
    intro key hkey
    simp only [List.coe_toFinset, Set.mem_ofPred_eq] at hkey
    obtain ⟨node, hnode, rfl⟩ := List.mem_map.mp hkey
    exact ⟨node, hreach node hnode, rfl⟩
  have hcard := Set.ncard_le_ncard hsub hfinite
  rw [Set.ncard_coe_finset, List.toFinset_card_of_nodup hnodup, List.length_map] at hcard
  exact hcard

/-- Nodes in reach that share a key are goals alike and have neighbors with the same keys. -/
structure Interchangeable (g : CostGraph Node Key Cost) (start : Node) : Prop where
  isGoal_eq : ∀ a b, g.Reachable start a → g.Reachable start b → g.key a = g.key b →
    g.isGoal a = g.isGoal b
  neighbors_keys : ∀ a b, g.Reachable start a → g.Reachable start b → g.key a = g.key b →
    ∀ key, key ∈ (g.neighbors a).map g.key ↔ key ∈ (g.neighbors b).map g.key

end CostGraph

namespace Exploration

variable [BEq Key] [Hashable Key] {g : CostGraph Node Key Cost} {start : Node}

/-- What holds of the records and the queue at all times. -/
structure Live (g : CostGraph Node Key Cost) (start : Node) (x : Exploration Node Key Cost) :
    Prop where
  indexed : Indexed g x
  reachable : ∀ (slot : Nat) (record : Record Node Cost), x.records[slot]? = some record →
    g.Reachable start record.node
  queued : ∀ (slot : Nat) (record : Record Node Cost), x.records[slot]? = some record →
    record.closed = false → record.entry slot ∈ x.queue.toList

/-- The entries that are dropped on the way to a selection are outdated, so the entries of
all other open records stay in the queue. -/
theorem Live.select [Ord Cost] [Std.ReflOrd Cost] {x : Exploration Node Key Cost}
    (hx : Live g start x) {slot : Nat} {record : Record Node Cost} {rest : Queue (Entry Cost)}
    (hpop : x.queue.popAccepted Entry.before (current x.records) = some ((slot, record), rest))
    (hrecord : x.records[slot]? = some record) : Live g start (x.select slot record rest) := by
  obtain ⟨dropped, entry, hentry, hdropped, hperm⟩ := Queue.exists_of_popAccepted_eq_some hpop
  refine ⟨hx.indexed.select hrecord rest, ?_, ?_⟩
  · intro i other hother
    simp only [Exploration.select, getElem?_replace hrecord] at hother
    split at hother
    · cases hother
      exact hx.reachable slot record hrecord
    · exact hx.reachable i other hother
  · intro i other hother hopen
    simp only [Exploration.select, getElem?_replace hrecord] at hother
    split at hother
    · cases hother
      cases hopen
    · rename_i hi
      -- Had the entry been dropped or popped, it would be refused or belong to `slot`.
      have haccept := current_entry hother hopen
      have hmem := hperm.mem_iff.mp (hx.queued i other hother hopen)
      rcases List.mem_append.mp hmem with hdrop | htail
      · rw [hdropped _ hdrop] at haccept
        cases haccept
      · rcases List.mem_cons.mp htail with hsame | hrest
        · rw [hsame, hentry] at haccept
          cases haccept
          exact absurd rfl hi
        · exact hrest

/-- Where the queue holds outdated entries only, every record is closed. -/
theorem Live.closed_of_exhausted [Ord Cost] [Std.ReflOrd Cost] {x : Exploration Node Key Cost}
    (hx : Live g start x)
    (hnone : x.queue.popAccepted Entry.before (current x.records) = none) (slot : Nat)
    (record : Record Node Cost) (hrecord : x.records[slot]? = some record) :
    record.closed = true := by
  cases hclosed : record.closed with
  | true => rfl
  | false =>
      rw [Queue.popAccepted_eq_none_iff] at hnone
      have hrefused := hnone _ (hx.queued slot record hrecord hclosed)
      rw [current_entry hrecord hclosed] at hrefused
      cases hrefused

section Discoveries

variable [LawfulBEq Key] [Add Cost] [Ord Cost]

theorem Live.discover {x : Exploration Node Key Cost} (hx : Live g start x) {source : Nat}
    {origin : Record Node Cost} (horigin : g.Reachable start origin.node) {node : Node}
    (hnode : node ∈ g.neighbors origin.node) :
    Live g start (Exploration.discover g source origin x node) := by
  have hext : Extends x (Exploration.discover g source origin x node) := extends_discover x node
  refine ⟨hx.indexed.discover node, ?_, ?_⟩
  · intro slot record hrecord
    rcases record_discover hrecord with hold | ⟨rfl, _, _⟩
    · exact hx.reachable slot record hold
    · exact horigin.tail hnode
  · intro slot record hrecord hopen
    rcases record_discover hrecord with hold | ⟨_, _, hentry⟩
    · exact hext.queue_mono _ (hx.queued slot record hold hopen)
    · exact hentry

theorem Live.foldl_discover {x : Exploration Node Key Cost} (hx : Live g start x) {source : Nat}
    {origin : Record Node Cost} (horigin : g.Reachable start origin.node) {nodes : List Node}
    (hnodes : ∀ node ∈ nodes, node ∈ g.neighbors origin.node) :
    Live g start (nodes.foldl (Exploration.discover g source origin) x) := by
  induction nodes generalizing x with
  | nil => exact hx
  | cons node nodes ih =>
      rw [List.forall_mem_cons] at hnodes
      exact ih (hx.discover horigin hnodes.1) hnodes.2

theorem Live.expand {x : Exploration Node Key Cost} (hx : Live g start x) {slot : Nat}
    {record : Record Node Cost} (hrecord : g.Reachable start record.node) :
    Live g start (x.expand g slot record) := by
  have hfold :
      Live g start ((g.neighbors record.node).foldl (Exploration.discover g slot record) x) :=
    hx.foldl_discover hrecord (fun _ h => h)
  exact ⟨hfold.indexed, hfold.reachable, hfold.queued⟩

end Discoveries

/-- The notes of a search: what was tested was expanded, and what was expanded are the closed
records, each of them once. -/
structure Logged (x : Exploration Node Key Cost) : Prop where
  tests_eq : x.tests.toList = x.expansions.toList.map (·.node)
  closed_iff : ∀ (slot : Nat) (node : Node),
    (∃ record, x.records[slot]? = some record ∧ record.closed = true ∧ record.node = node) ↔
      ∃ expansion ∈ x.expansions.toList, expansion.slot = slot ∧ expansion.node = node
  slots_nodup : (x.expansions.toList.map (·.slot)).Nodup

theorem Logged.expanded {x : Exploration Node Key Cost} (hx : Logged x)
    {expansion : Expansion Node} (h : expansion ∈ x.expansions.toList) :
    ∃ record, x.records[expansion.slot]? = some record ∧ record.closed = true ∧
      record.node = expansion.node :=
  (hx.closed_iff _ _).mpr ⟨expansion, h, rfl, rfl⟩

theorem Logged.slot_ne_of_open {x : Exploration Node Key Cost} (hx : Logged x) {slot : Nat}
    {record : Record Node Cost} (hrecord : x.records[slot]? = some record)
    (hopen : record.closed = false) {expansion : Expansion Node}
    (h : expansion ∈ x.expansions.toList) : expansion.slot ≠ slot := by
  intro hslot
  obtain ⟨other, hother, hclosed, _⟩ := hx.expanded h
  rw [hslot, hrecord] at hother
  cases hother
  rw [hopen] at hclosed
  cases hclosed

theorem Logged.keys_nodup {x : Exploration Node Key Cost} (hx : Logged x) (hindexed : Indexed g x) :
    (x.tests.toList.map g.key).Nodup := by
  rw [hx.tests_eq, List.map_map, List.Nodup, List.pairwise_map]
  have hslots := hx.slots_nodup
  rw [List.Nodup, List.pairwise_map] at hslots
  refine hslots.imp_of_mem ?_
  intro a b ha hb hne hkey
  obtain ⟨r, hr, _, hra⟩ := hx.expanded ha
  obtain ⟨q, hq, _, hqb⟩ := hx.expanded hb
  apply hne
  apply hindexed.slot_unique hr hq
  rw [hra, hqb]
  exact hkey

/-- The key of an open record is new to the tests. -/
theorem Logged.keys_nodup_push {x : Exploration Node Key Cost} (hx : Logged x)
    (hindexed : Indexed g x) {slot : Nat} {record : Record Node Cost}
    (hrecord : x.records[slot]? = some record) (hopen : record.closed = false) :
    ((x.tests.push record.node).toList.map g.key).Nodup := by
  rw [Array.toList_push, List.map_append, List.nodup_append]
  refine ⟨hx.keys_nodup hindexed, by simp, ?_⟩
  intro key hkey last hlast hsame
  obtain rfl : last = g.key record.node := by simpa using hlast
  rw [hx.tests_eq, List.map_map] at hkey
  obtain ⟨expansion, hmem, rfl⟩ := List.mem_map.mp hkey
  obtain ⟨other, hother, _, hnode⟩ := hx.expanded hmem
  apply hx.slot_ne_of_open hrecord hopen hmem
  apply hindexed.slot_unique hother hrecord
  rw [hnode]
  exact hsame

theorem Logged.step [LawfulBEq Key] [Add Cost] [Ord Cost] {x y : Exploration Node Key Cost}
    (hx : Logged x) (h : x.step g = .expanded y) : Logged y := by
  obtain ⟨slot, record, rest, _, hrecord, hopen, _, rfl⟩ := of_step_eq_expanded h
  have hext : Extends (x.select slot record rest)
      ((x.select slot record rest).expand g slot record.close) := extends_expand _ _ _
  have hexpansions : ((x.select slot record rest).expand g slot record.close).expansions =
      x.expansions.push ⟨slot, record.node, _⟩ := expansions_expand _ _ _
  refine ⟨?_, ?_, ?_⟩
  · rw [hext.tests_eq, hexpansions]
    simp [Exploration.select, hx.tests_eq]
  · intro i node
    rw [hexpansions]
    simp only [Array.toList_push, List.mem_append, List.mem_singleton]
    -- The record that was selected is the expansion noted last, all others are older.
    constructor
    · rintro ⟨other, hother, hc, rfl⟩
      rcases (closed_expand_iff hrecord hopen rest hc).mp hother with ⟨rfl, rfl⟩ | hold
      · exact ⟨_, Or.inr rfl, rfl, rfl⟩
      · obtain ⟨expansion, hmem, hslot⟩ := (hx.closed_iff i other.node).mp ⟨other, hold, hc, rfl⟩
        exact ⟨expansion, Or.inl hmem, hslot⟩
    · rintro ⟨expansion, hmem | rfl, rfl, rfl⟩
      · obtain ⟨other, hother, hc, hnode⟩ := hx.expanded hmem
        exact ⟨other, (closed_expand_iff hrecord hopen rest hc).mpr (Or.inr hother), hc, hnode⟩
      · have hclosed := (closed_expand_iff (g := g) hrecord hopen rest record.closed_close).mpr
          (Or.inl ⟨rfl, rfl⟩)
        exact ⟨record.close, hclosed, rfl, rfl⟩
  · rw [hexpansions, Array.toList_push, List.map_append, List.nodup_append]
    refine ⟨hx.slots_nodup, by simp, ?_⟩
    intro a ha b hb hab
    obtain rfl : b = slot := by simpa using hb
    obtain ⟨expansion, hmem, rfl⟩ := List.mem_map.mp ha
    exact hx.slot_ne_of_open hrecord hopen hmem hab

/-- What holds of a search between two selections. -/
structure Covering (g : CostGraph Node Key Cost) (start : Node) (x : Exploration Node Key Cost) :
    Prop where
  live : Live g start x
  logged : Logged x
  start_known : ∃ slot, x.slots[g.key start]? = some slot
  not_goal : ∀ (slot : Nat) (record : Record Node Cost), x.records[slot]? = some record →
    record.closed = true → g.isGoal record.node = false
  covered : ∀ (slot : Nat) (record : Record Node Cost), x.records[slot]? = some record →
    record.closed = true → ∀ node ∈ g.neighbors record.node,
      ∃ other, x.slots[g.key node]? = some other

theorem covering_start [LawfulBEq Key] [Ord Cost] [Inhabited Cost] (g : CostGraph Node Key Cost)
    (start : Node) : Covering g start (Exploration.start g start) := by
  have honly : ∀ (slot : Nat) (record : Record Node Cost),
      (Exploration.start g start).records[slot]? = some record →
        slot = 0 ∧ record = ⟨start, false, default, g.estimate start, none, 0⟩ := by
    intro slot record h
    cases slot with
    | zero => simpa [Exploration.start, eq_comm] using h
    | succ slot => simp [Exploration.start] at h
  have hopen : ∀ (slot : Nat) (record : Record Node Cost),
      (Exploration.start g start).records[slot]? = some record → record.closed ≠ true := by
    intro slot record h
    rw [(honly slot record h).2]
    exact Bool.false_ne_true
  refine ⟨⟨Indexed.start g start, ?_, ?_⟩, ⟨rfl, ?_, List.nodup_nil⟩, ?_, ?_, ?_⟩
  · intro slot record h
    rw [(honly slot record h).2]
    exact Relation.ReflTransGen.refl
  · intro slot record h _
    obtain ⟨rfl, rfl⟩ := honly slot record h
    exact (Queue.toList_insert_perm _ _ _).mem_iff.mpr List.mem_cons_self
  · intro slot node
    constructor
    · rintro ⟨record, h, hclosed, _⟩
      exact absurd hclosed (hopen slot record h)
    · rintro ⟨expansion, h, _⟩
      cases h
  · exact ⟨0, by simp [Exploration.start]⟩
  · intro slot record h hclosed
    exact absurd hclosed (hopen slot record h)
  · intro slot record h hclosed
    exact absurd hclosed (hopen slot record h)

theorem Covering.step [LawfulBEq Key] [Add Cost] [Ord Cost] [Std.ReflOrd Cost]
    {x y : Exploration Node Key Cost} (hx : Covering g start x) (h : x.step g = .expanded y) :
    Covering g start y := by
  have hlogged := hx.logged.step h
  obtain ⟨slot, record, rest, hpop, hrecord, hopen, hgoal, rfl⟩ := of_step_eq_expanded h
  have hselect := hx.live.select hpop hrecord
  have hreach : g.Reachable start record.close.node := hx.live.reachable slot record hrecord
  have hext : Extends (x.select slot record rest)
      ((x.select slot record rest).expand g slot record.close) := extends_expand _ _ _
  refine ⟨hselect.expand hreach, hlogged, ?_, ?_, ?_⟩
  · obtain ⟨first, hfirst⟩ := hx.start_known
    exact ⟨first, hext.slots_mono _ _ hfirst⟩
  · intro i other hother hc
    rcases (closed_expand_iff hrecord hopen rest hc).mp hother with ⟨_, rfl⟩ | hold
    · exact hgoal
    · exact hx.not_goal i other hold hc
  · intro i other hother hc node hnode
    rcases (closed_expand_iff hrecord hopen rest hc).mp hother with ⟨_, rfl⟩ | hold
    · exact exists_slot_foldl_discover _ hnode
    · obtain ⟨found, hfound⟩ := hx.covered i other hold hc node hnode
      exact ⟨found, hext.slots_mono _ _ hfound⟩

theorem Covering.reachable_of_mem {x : Exploration Node Key Cost} (hx : Covering g start x)
    {node : Node} (h : node ∈ x.tests.toList) : g.Reachable start node ∧ g.isGoal node = false := by
  rw [hx.logged.tests_eq] at h
  obtain ⟨expansion, hmem, rfl⟩ := List.mem_map.mp h
  obtain ⟨record, hrecord, hclosed, hnode⟩ := hx.logged.expanded hmem
  rw [← hnode]
  exact ⟨hx.live.reachable _ record hrecord, hx.not_goal _ record hrecord hclosed⟩

/-- The keys that were closed are all different and in reach. -/
theorem Covering.size_le {x : Exploration Node Key Cost} (hx : Covering g start x)
    (hfinite : (g.reachableKeys start).Finite) :
    x.expansions.size ≤ (g.reachableKeys start).ncard := by
  have hle := CostGraph.length_le_ncard hfinite (hx.logged.keys_nodup hx.live.indexed)
    fun node hnode => (hx.reachable_of_mem hnode).1
  rw [hx.logged.tests_eq] at hle
  simpa using hle

theorem Covering.exists_record {x : Exploration Node Key Cost} (hx : Covering g start x)
    (hsame : g.Interchangeable start)
    (hclosed : ∀ (slot : Nat) (record : Record Node Cost), x.records[slot]? = some record →
      record.closed = true) {node : Node} (hnode : g.Reachable start node) :
    ∃ (slot : Nat) (record : Record Node Cost), x.records[slot]? = some record ∧
      g.key record.node = g.key node := by
  -- A record on the way may be for another node with the same key: its neighbors will do.
  induction hnode with
  | refl =>
      obtain ⟨slot, hslot⟩ := hx.start_known
      exact ⟨slot, (hx.live.indexed _ _).mp hslot⟩
  | @tail a b ha hb ih =>
      obtain ⟨slot, record, hrecord, hkey⟩ := ih
      have hreach := hx.live.reachable slot record hrecord
      have hmem := (hsame.neighbors_keys _ _ hreach ha hkey (g.key b)).mpr (List.mem_map_of_mem hb)
      obtain ⟨twin, htwin, hsamekey⟩ := List.mem_map.mp hmem
      obtain ⟨other, hother⟩ := hx.covered slot record hrecord (hclosed _ _ hrecord) twin htwin
      exact ⟨other, hsamekey ▸ (hx.live.indexed _ _).mp hother⟩

theorem Covering.mem_keys_iff {x : Exploration Node Key Cost} (hx : Covering g start x)
    (hsame : g.Interchangeable start)
    (hclosed : ∀ (slot : Nat) (record : Record Node Cost), x.records[slot]? = some record →
      record.closed = true) (key : Key) :
    key ∈ x.tests.toList.map g.key ↔ key ∈ g.reachableKeys start := by
  constructor
  · intro hkey
    obtain ⟨node, hnode, rfl⟩ := List.mem_map.mp hkey
    exact ⟨node, (hx.reachable_of_mem hnode).1, rfl⟩
  · rintro ⟨node, hnode, rfl⟩
    obtain ⟨slot, record, hrecord, hkey⟩ := hx.exists_record hsame hclosed hnode
    obtain ⟨expansion, hmem, _, hexpanded⟩ :=
      (hx.logged.closed_iff slot record.node).mp ⟨record, hrecord, hclosed _ _ hrecord, rfl⟩
    rw [hx.logged.tests_eq, ← hkey, ← hexpanded]
    exact List.mem_map_of_mem (List.mem_map_of_mem hmem)

end Exploration

namespace CostGraph

variable [BEq Key] [LawfulBEq Key] [Hashable Key] [Add Cost] [Ord Cost] [Std.ReflOrd Cost]
  [Inhabited Cost] {g : CostGraph Node Key Cost} {start : Node} {limit : Nat}

/-- A search with enough selections for the keys in reach closes every record, or closes a
goal that is in reach and was not tested before. -/
theorem search_cases (hfinite : (g.reachableKeys start).Finite)
    (hlimit : (g.reachableKeys start).ncard < limit) :
    ∃ x : Exploration Node Key Cost, x.Covering g start ∧
      ((∀ (slot : Nat) (record : Record Node Cost), x.records[slot]? = some record →
          record.closed = true) ∧ g.search limit start = ⟨.exhausted, x.tests, x.expansions⟩ ∨
        ∃ records slot goal, g.Reachable start goal ∧ g.isGoal goal = true ∧
          ((x.tests.push goal).toList.map g.key).Nodup ∧
          g.search limit start = ⟨.reached records slot, x.tests.push goal, x.expansions⟩) := by
  obtain ⟨x, hx, hend⟩ :=
    run_ends (fun _ _ hx hstep => hx.step hstep) (Exploration.covering_start g start) limit
  refine ⟨x, hx, ?_⟩
  change x.step g = .ended (g.search limit start) ∨ _ ∧ _ at hend
  rcases hend with hended | ⟨_, hcount⟩
  · rcases Exploration.of_step_eq_ended hended with
      ⟨hnone, heq⟩ | ⟨slot, record, rest, _, hrecord, hopen, hgoal, heq⟩
    · exact Or.inl ⟨hx.live.closed_of_exhausted hnone, heq⟩
    · have hreach := hx.live.reachable slot record hrecord
      have hnodup := hx.logged.keys_nodup_push hx.live.indexed hrecord hopen
      exact Or.inr ⟨_, slot, record.node, hreach, hgoal, hnodup, heq⟩
  · -- A run that is cut off would have closed more keys than are in reach.
    have hsize := hx.size_le hfinite
    have hzero : (Exploration.start g start).expansions.size = 0 := rfl
    omega

omit [Std.ReflOrd Cost] in
/-- A path ends in a goal that is in reach. -/
theorem of_path_getLast? {goal : Node}
    (h : (g.search limit start).path.getLast? = some goal) :
    g.Reachable start goal ∧ g.isGoal goal = true := by
  have hpath : (g.search limit start).path ≠ [] := by
    intro hnil
    rw [hnil] at h
    cases h
  obtain ⟨records, slot, hverdict⟩ := path_ne_nil_iff.mp hpath
  obtain ⟨record, _, hgoal, _, hroute⟩ := isRoute_of_reached hverdict
  rw [hroute.last_eq] at h
  cases h
  have hchain := List.relationReflTransGen_of_exists_isChain _ hroute.linked hpath
  rw [(List.head_eq_iff_head?_eq_some hpath).mpr hroute.head_eq,
    (List.getLast_eq_iff_getLast?_eq_some hpath).mpr hroute.last_eq] at hchain
  exact ⟨hchain, hgoal⟩

/-- A search with enough selections finds a path exactly if a goal is in reach. -/
theorem path_eq_nil_iff (hsame : g.Interchangeable start)
    (hfinite : (g.reachableKeys start).Finite)
    (hlimit : (g.reachableKeys start).ncard < limit) :
    (g.search limit start).path = [] ↔ ∀ node, g.Reachable start node → g.isGoal node = false := by
  obtain ⟨x, hx, ⟨hclosed, heq⟩ | ⟨records, slot, goal, hreach, hgoal, _, heq⟩⟩ :=
    search_cases hfinite hlimit
  · constructor
    · intro _ node hnode
      have hkey := (hx.mem_keys_iff hsame hclosed (g.key node)).mpr ⟨node, hnode, rfl⟩
      obtain ⟨twin, htwin, hkeys⟩ := List.mem_map.mp hkey
      obtain ⟨hreach, hgoal⟩ := hx.reachable_of_mem htwin
      rw [hsame.isGoal_eq node twin hnode hreach hkeys.symm]
      exact hgoal
    · intro _
      rw [heq]
      rfl
  · have hpath : (g.search limit start).path ≠ [] :=
      path_ne_nil_iff.mpr ⟨records, slot, by rw [heq]⟩
    constructor
    · intro hnil
      exact absurd hnil hpath
    · intro hnone
      rw [hnone goal hreach] at hgoal
      cases hgoal

/-- A search with enough selections comes to an end. -/
theorem verdict_ne_cutOff (hfinite : (g.reachableKeys start).Finite)
    (hlimit : (g.reachableKeys start).ncard < limit) :
    (g.search limit start).verdict ≠ .cutOff := by
  obtain ⟨x, _, ⟨_, heq⟩ | ⟨records, slot, _, _, _, _, heq⟩⟩ := search_cases hfinite hlimit
  · simp [heq]
  · simp [heq]

/-- A search with enough selections tests every key in reach once and expands what it has
tested, up to the first goal that it selects. -/
theorem search_visits_once (hsame : g.Interchangeable start)
    (hfinite : (g.reachableKeys start).Finite)
    (hlimit : (g.reachableKeys start).ncard < limit) :
    let outcome := g.search limit start
    outcome.verdict ≠ .cutOff ∧
      (outcome.path = [] ↔ ∀ node, g.Reachable start node → g.isGoal node = false) ∧
      (outcome.path = [] →
        (∀ key, key ∈ outcome.tested.map g.key ↔ key ∈ g.reachableKeys start) ∧
          outcome.expanded = outcome.tested) ∧
      (outcome.tested.map g.key).Nodup ∧
      (outcome.path ≠ [] → ∀ node ∈ outcome.tested.dropLast, g.isGoal node = false) := by
  intro outcome
  have hpath := path_eq_nil_iff hsame hfinite hlimit
  obtain ⟨x, hx, ⟨hclosed, heq⟩ | ⟨records, slot, goal, hreach, hgoal, hnodup, heq⟩⟩ :=
    search_cases hfinite hlimit
  · have htests : outcome.tested = x.tests.toList := congrArg Outcome.tested heq
    have hexpanded : outcome.expanded = x.expansions.toList.map (·.node) :=
      congrArg Outcome.expanded heq
    have hverdict : outcome.verdict = .exhausted := congrArg Outcome.verdict heq
    refine ⟨by simp [hverdict], hpath, ?_, ?_, ?_⟩
    · intro _
      rw [htests, hexpanded]
      exact ⟨hx.mem_keys_iff hsame hclosed, hx.logged.tests_eq.symm⟩
    · rw [htests]
      exact hx.logged.keys_nodup hx.live.indexed
    · intro hfound
      exact absurd (by simp [Outcome.path, hverdict]) hfound
  · have htests : outcome.tested = x.tests.toList ++ [goal] :=
      (congrArg Outcome.tested heq).trans Array.toList_push
    have hverdict : outcome.verdict = .reached records slot := congrArg Outcome.verdict heq
    refine ⟨by simp [hverdict], hpath, ?_, ?_, ?_⟩
    · intro hnil
      have hno := hpath.mp hnil goal hreach
      rw [hno] at hgoal
      cases hgoal
    · rw [htests, ← Array.toList_push]
      exact hnodup
    · intro _ node hnode
      rw [htests, List.dropLast_concat] at hnode
      exact (hx.reachable_of_mem hnode).2

end CostGraph

/-- Endlessly many nodes, which are told apart by their remainders only. -/
def clock : CostGraph Nat Nat where
  key n := n % 4
  isGoal _ := false
  distance a b := a - b
  estimate n := n % 3
  neighbors n := [n + 1, n + 6, n + 9]

theorem clock_visits_once :
    (clock.search 5 0).path = [] ∧ ((clock.search 5 0).tested.map clock.key).Nodup ∧
      (clock.search 5 0).expanded = (clock.search 5 0).tested := by
  have hsame : clock.Interchangeable 0 := by
    refine ⟨fun _ _ _ _ _ => rfl, ?_⟩
    intro a b _ _ hkey key
    have hkeys : ∀ n, (clock.neighbors n).map clock.key =
        [(n % 4 + 1) % 4, (n % 4 + 6) % 4, (n % 4 + 9) % 4] := by
      intro n
      simp [clock]
    have hmod : a % 4 = b % 4 := hkey
    rw [hkeys, hkeys, hmod]
  have hsub : clock.reachableKeys 0 ⊆ ↑(Finset.range 4) := by
    rintro key ⟨node, _, rfl⟩
    exact Finset.mem_coe.mpr (Finset.mem_range.mpr (Nat.mod_lt node (by decide)))
  have hfinite : (clock.reachableKeys 0).Finite := (Finset.range 4).finite_toSet.subset hsub
  have hcard : (clock.reachableKeys 0).ncard < 5 := by
    have hle := Set.ncard_le_ncard hsub (Finset.range 4).finite_toSet
    rw [Set.ncard_coe_finset, Finset.card_range] at hle
    omega
  obtain ⟨_, hpath, hall, hnodup, _⟩ := CostGraph.search_visits_once hsame hfinite hcard
  have hnil := hpath.mpr fun _ _ => rfl
  exact ⟨hnil, hnodup, (hall hnil).2⟩

end QueensPuzzle.Search
