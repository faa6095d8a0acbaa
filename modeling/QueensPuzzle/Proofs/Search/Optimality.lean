import Mathlib.Data.Set.Function
import QueensPuzzle.Proofs.Search.Selection

/-! # Shortest paths

With a consistent estimate the priorities of the selections never fall: closed records lie
below some level and open ones above it, and every selection raises the level. A closed record
is therefore never outdone, and along any walk the records known so far cost no more than the
walk, up to the first one that is open. The goal that is selected has the least priority of
the open records, which makes its path as short as the walk.
-/

namespace QueensPuzzle.Search

variable {Node Key : Type}

namespace CostGraph

/-- The estimate falls by no more than the distance along any edge in reach, and is zero at
goals. The distances may be negative. -/
structure Consistent (g : CostGraph Node Key Int) (start : Node) : Prop where
  estimate_le : ∀ a, g.Reachable start a → ∀ b ∈ g.neighbors a,
    g.estimate a ≤ g.distance a b + g.estimate b
  estimate_goal : ∀ goal, g.Reachable start goal → g.isGoal goal = true → g.estimate goal = 0

/-- A walk over neighbors, which may come to a node again and again. -/
structure IsWalk {Cost : Type} (g : CostGraph Node Key Cost) (start last : Node)
    (walk : List Node) : Prop where
  head_eq : walk.head? = some start
  linked : walk.IsChain fun a b => b ∈ g.neighbors a
  last_eq : walk.getLast? = some last

/-- A walk from a node in reach costs at least what is estimated there. -/
theorem Consistent.add_estimate_le {g : CostGraph Node Key Int} {start : Node}
    (hest : g.Consistent start) {goal : Node} (hgoal : g.isGoal goal = true) {walk : List Node}
    {a : Node} (ha : g.Reachable start a) (hwalk : g.IsWalk a goal walk) (cost : Int) :
    cost + g.estimate a ≤ g.costAlong cost walk := by
  induction walk generalizing a cost with
  | nil => cases hwalk.head_eq
  | cons first rest ih =>
      obtain rfl : first = a := by simpa using hwalk.head_eq
      cases rest with
      | nil =>
          obtain rfl : first = goal := by simpa using hwalk.last_eq
          rw [hest.estimate_goal first ha hgoal]
          simp [costAlong]
      | cons second rest =>
          have hlinked := List.isChain_cons_cons.mp hwalk.linked
          have hlast : (second :: rest).getLast? = some goal := by simpa using hwalk.last_eq
          have hrest :=
            ih (ha.tail hlinked.1) ⟨rfl, hlinked.2, hlast⟩ (cost + g.distance first second)
          have hedge := hest.estimate_le first ha second hlinked.1
          rw [costAlong]
          omega

theorem costAlong_eq_add (g : CostGraph Node Key Int) (cost : Int) (nodes : List Node) :
    g.costAlong cost nodes = cost + g.costAlong 0 nodes := by
  induction nodes generalizing cost with
  | nil => simp [costAlong]
  | cons first rest ih =>
      cases rest with
      | nil => simp [costAlong]
      | cons second rest =>
          simp only [costAlong]
          rw [ih, ih (0 + g.distance first second)]
          omega

end CostGraph

/-- What is assumed of a closed record whose neighbors are taken in. -/
structure Expandable (g : CostGraph Node Key Int) (start : Node) (level : Int)
    (origin : Record Node Int) : Prop where
  consistent : g.Consistent start
  injOn : Set.InjOn g.key {node | g.Reachable start node}
  reachable : g.Reachable start origin.node
  level_eq : level = origin.cost + g.estimate origin.node

theorem Expandable.level_le {g : CostGraph Node Key Int} {start : Node} {level : Int}
    {origin : Record Node Int} (h : Expandable g start level origin) {node : Node}
    (hnode : node ∈ g.neighbors origin.node) :
    level ≤ origin.cost + g.distance origin.node node + g.estimate node := by
  have hedge := h.consistent.estimate_le origin.node h.reachable node hnode
  have hlevel := h.level_eq
  omega

namespace Exploration

variable [BEq Key] [Hashable Key] {g : CostGraph Node Key Int} {start : Node} {level : Int}
  {x : Exploration Node Key Int}

/-- The priorities of closed records are below the level, those of open ones above. -/
structure Leveled (g : CostGraph Node Key Int) (level : Int) (x : Exploration Node Key Int) :
    Prop where
  priority_eq : ∀ (slot : Nat) (record : Record Node Int), x.records[slot]? = some record →
    record.priority = record.cost + g.estimate record.node
  closed_le : ∀ (slot : Nat) (record : Record Node Int), x.records[slot]? = some record →
    record.closed = true → record.priority ≤ level
  le_open : ∀ (slot : Nat) (record : Record Node Int), x.records[slot]? = some record →
    record.closed = false → level ≤ record.priority

/-- The priority of every record is its cost and the estimate at its node. -/
def Priced (g : CostGraph Node Key Int) (x : Exploration Node Key Int) : Prop :=
  ∀ (slot : Nat) (record : Record Node Int), x.records[slot]? = some record →
    record.priority = record.cost + g.estimate record.node

theorem Leveled.priced (hx : Leveled g level x) : Priced g x := hx.priority_eq

/-- There is a record for the node that costs no more than the given cost. -/
def Known (x : Exploration Node Key Int) (node : Node) (cost : Int) : Prop :=
  ∃ (slot : Nat) (record : Record Node Int), x.records[slot]? = some record ∧
    record.node = node ∧ record.cost ≤ cost

theorem Known.mono {node : Node} {cost more : Int} (h : x.Known node cost) (hle : cost ≤ more) :
    x.Known node more := by
  obtain ⟨slot, record, hrecord, hnode, hcost⟩ := h
  exact ⟨slot, record, hrecord, hnode, Int.le_trans hcost hle⟩

/-! ## Discoveries -/

section Discoveries

variable {source : Nat} {origin : Record Node Int} {node : Node}

/-- The record in the slot of a node in reach is a record of this very node. -/
theorem Live.node_eq (hlive : Live g start x)
    (hinj : Set.InjOn g.key {node | g.Reachable start node}) (hnode : g.Reachable start node)
    {slot : Nat} (hslot : x.slots[g.key node]? = some slot) {record : Record Node Int}
    (hrecord : x.records[slot]? = some record) : record.node = node := by
  obtain ⟨other, hother, hkey⟩ := (hlive.indexed _ slot).mp hslot
  rw [hrecord] at hother
  cases hother
  exact hinj (hlive.reachable slot record hrecord) hnode hkey

theorem Priced.discover (hx : Priced g x) (node : Node) :
    Priced g (discover g source origin x node) := by
  intro slot record hrecord
  rcases record_discover hrecord with hold | ⟨rfl, _, _⟩
  · exact hx slot record hold
  · rfl

theorem Leveled.discover (hx : Leveled g level x) (h : Expandable g start level origin)
    (hnode : node ∈ g.neighbors origin.node) :
    Leveled g level (discover g source origin x node) := by
  refine ⟨hx.priced.discover node, ?_, ?_⟩
  · intro slot record hrecord hclosed
    rcases record_discover hrecord with hold | ⟨rfl, _, _⟩
    · exact hx.closed_le slot record hold hclosed
    · cases hclosed
  · intro slot record hrecord hopen
    rcases record_discover hrecord with hold | ⟨rfl, _, _⟩
    · exact hx.le_open slot record hold hopen
    · exact h.level_le hnode

/-- A record that is replaced gives way to one of the same node at a lower cost. -/
theorem Known.discover (hlive : Live g start x) (hx : Priced g x)
    (hinj : Set.InjOn g.key {node | g.Reachable start node}) (hnode : g.Reachable start node)
    {known : Node} {cost : Int} (hknown : x.Known known cost) :
    (discover g source origin x node).Known known cost := by
  obtain ⟨i, record, hrecord, rfl, hcost⟩ := hknown
  rcases discover_cases g source origin x node with
    ⟨_, heq⟩ | ⟨slot, old, hslot, hold, _, hhigher, heq⟩ | ⟨_, _, _, heq⟩
  · refine ⟨i, record, ?_, rfl, hcost⟩
    rw [heq]
    exact getElem?_push_of_some _ hrecord
  · by_cases hi : i = slot
    · subst hi
      rw [hrecord] at hold
      cases hold
      have hsame := hlive.node_eq hinj hnode hslot hrecord
      have hpriority := hx i record hrecord
      have hlower := Std.OrientedCmp.lt_of_not_isLE (ne_true_of_eq_false hhigher)
      rw [Int.compare_eq_lt] at hlower
      refine ⟨i, offer g source origin x.stamp node, ?_, hsame.symm, ?_⟩
      · rw [heq]
        simp [getElem?_replace hrecord]
      · simp only [offer] at hlower ⊢
        rw [hsame] at hpriority
        omega
    · refine ⟨i, record, ?_, rfl, hcost⟩
      rw [heq]
      simp [getElem?_replace hold, hi, hrecord]
  · rw [heq]
    exact ⟨i, record, hrecord, rfl, hcost⟩

/-- A discovery makes the node known at the cost of the way over `origin`, unless there is a
closed record for it, which stays as it is. -/
theorem known_discover_or_closed (hlive : Live g start x) (hx : Priced g x)
    (hinj : Set.InjOn g.key {node | g.Reachable start node}) (hnode : g.Reachable start node) :
    (discover g source origin x node).Known node (origin.cost + g.distance origin.node node) ∨
      ∃ (slot : Nat) (record : Record Node Int), x.records[slot]? = some record ∧
        record.node = node ∧ record.closed = true := by
  rcases discover_cases g source origin x node with
    ⟨_, heq⟩ | ⟨slot, old, _, hold, _, _, heq⟩ | ⟨slot, hslot, hkept, heq⟩
  · left
    refine ⟨x.records.size, offer g source origin x.stamp node, ?_, rfl, Int.le_refl _⟩
    rw [heq]
    simp
  · left
    refine ⟨slot, offer g source origin x.stamp node, ?_, rfl, Int.le_refl _⟩
    rw [heq]
    simp [getElem?_replace hold]
  · obtain ⟨record, hrecord, _⟩ := (hlive.indexed _ slot).mp hslot
    have hsame := hlive.node_eq hinj hnode hslot hrecord
    rcases hkept record hrecord with hclosed | hle
    · exact .inr ⟨slot, record, hrecord, hsame, hclosed⟩
    · left
      have hpriority := hx slot record hrecord
      rw [hsame] at hpriority
      rw [Int.isLE_compare] at hle
      simp only [offer] at hle
      exact ⟨slot, record, by rw [heq]; exact hrecord, hsame, by omega⟩

theorem foldl_discover_known_or_closed [LawfulBEq Key] (source : Nat) (hlive : Live g start x)
    (hx : Priced g x) (hinj : Set.InjOn g.key {node | g.Reachable start node})
    (hreach : g.Reachable start origin.node) {nodes : List Node}
    (hnodes : ∀ node ∈ nodes, node ∈ g.neighbors origin.node) :
    let y := nodes.foldl (Exploration.discover g source origin) x
    Priced g y ∧ (∀ known cost, x.Known known cost → y.Known known cost) ∧
      ∀ node ∈ nodes, y.Known node (origin.cost + g.distance origin.node node) ∨
        ∃ (slot : Nat) (record : Record Node Int), x.records[slot]? = some record ∧
          record.node = node ∧ record.closed = true := by
  induction nodes generalizing x with
  | nil => exact ⟨hx, fun _ _ hknown => hknown, by simp⟩
  | cons first nodes ih =>
      rw [List.forall_mem_cons] at hnodes
      have hfirst : g.Reachable start first := hreach.tail hnodes.1
      have hext : Extends x (Exploration.discover g source origin x first) :=
        extends_discover x first
      obtain ⟨hpriced, hkept, hall⟩ :=
        ih (hlive.discover hreach hnodes.1) (hx.discover first) hnodes.2
      refine ⟨hpriced, ?_, ?_⟩
      · intro known cost hknown
        exact hkept known cost (hknown.discover hlive hx hinj hfirst)
      · rw [List.forall_mem_cons]
        refine ⟨?_, ?_⟩
        · exact (known_discover_or_closed hlive hx hinj hfirst).imp_left (hkept first _)
        · intro node hnode
          rcases hall node hnode with hknown | ⟨slot, record, hrecord, hsame, hclosed⟩
          · exact .inl hknown
          · exact .inr ⟨slot, record, (hext.closed_iff slot record hclosed).mp hrecord, hsame,
              hclosed⟩

theorem Leveled.foldl_discover (hx : Leveled g level x) (h : Expandable g start level origin)
    {nodes : List Node} (hnodes : ∀ node ∈ nodes, node ∈ g.neighbors origin.node) :
    Leveled g level (nodes.foldl (Exploration.discover g source origin) x) := by
  induction nodes generalizing x with
  | nil => exact hx
  | cons first nodes ih =>
      rw [List.forall_mem_cons] at hnodes
      exact ih (hx.discover h hnodes.1) hnodes.2

/-- With a consistent estimate a closed record costs no more than the way over `origin`, since
no closed record has a priority above the level. -/
theorem foldl_discover_known [LawfulBEq Key] (source : Nat) (hlive : Live g start x)
    (hx : Leveled g level x) (h : Expandable g start level origin) {nodes : List Node}
    (hnodes : ∀ node ∈ nodes, node ∈ g.neighbors origin.node) :
    let y := nodes.foldl (Exploration.discover g source origin) x
    Leveled g level y ∧ (∀ known cost, x.Known known cost → y.Known known cost) ∧
      ∀ node ∈ nodes, y.Known node (origin.cost + g.distance origin.node node) := by
  obtain ⟨_, hkept, hall⟩ :=
    foldl_discover_known_or_closed source hlive hx.priced h.injOn h.reachable hnodes
  refine ⟨hx.foldl_discover h hnodes, hkept, ?_⟩
  intro node hnode
  rcases hall node hnode with hknown | ⟨slot, record, hrecord, rfl, hclosed⟩
  · exact hknown
  · have hpriority := hx.priority_eq slot record hrecord
    have hbelow := hx.closed_le slot record hrecord hclosed
    have habove := h.level_le (hnodes _ hnode)
    exact hkept _ _ ⟨slot, record, hrecord, rfl, by omega⟩

end Discoveries

/-! ## Selections -/

/-- What holds of a search between two selections: the neighbors of closed records are known
at no more than the cost over these. -/
structure Settled (g : CostGraph Node Key Int) (start : Node) (level : Int)
    (x : Exploration Node Key Int) : Prop where
  covering : Covering g start x
  ordered : x.queue.Ordered Entry.before
  leveled : Leveled g level x
  start_known : x.Known start 0
  relaxed : ∀ (slot : Nat) (record : Record Node Int), x.records[slot]? = some record →
    record.closed = true → ∀ node ∈ g.neighbors record.node,
      x.Known node (record.cost + g.distance record.node node)

theorem Settled.scheduled (hx : Settled g start level x) : Scheduled g start x :=
  ⟨hx.covering.live, hx.ordered⟩

theorem settled_start [LawfulBEq Key] (g : CostGraph Node Key Int) (start : Node) :
    Settled g start (g.estimate start) (Exploration.start g start) := by
  have honly : ∀ (slot : Nat) (record : Record Node Int),
      (Exploration.start g start).records[slot]? = some record →
        record = ⟨start, false, 0, g.estimate start, none, 0⟩ := by
    intro slot record h
    cases slot with
    | zero => simpa [Exploration.start, eq_comm] using h
    | succ slot => simp [Exploration.start] at h
  refine ⟨covering_start g start, (scheduled_start g start).ordered, ⟨?_, ?_, ?_⟩, ?_, ?_⟩
  · intro slot record h
    rw [honly slot record h, Int.zero_add]
  · intro slot record h _
    rw [honly slot record h]
  · intro slot record h _
    rw [honly slot record h]
  · exact ⟨0, ⟨start, false, 0, g.estimate start, none, 0⟩, rfl, rfl, Int.le_refl 0⟩
  · intro slot record h hclosed
    rw [honly slot record h] at hclosed
    cases hclosed

section Selections

variable {slot : Nat} {record : Record Node Int} {rest : Queue (Entry Int)}

theorem Scheduled.priority_le (hx : Scheduled g start x)
    (hpop : x.queue.popAccepted Entry.before (current x.records) = some ((slot, record), rest))
    {i : Nat} {other : Record Node Int} (hother : x.records[i]? = some other)
    (hopen : other.closed = false) : record.priority ≤ other.priority := by
  have hbefore := Entry.before_iff.mp (hx.before_of_open hpop hother hopen)
  simp only [Record.entry, Int.compare_eq_lt, Int.compare_eq_eq] at hbefore
  omega

theorem Priced.select (hx : Priced g x) (hrecord : x.records[slot]? = some record)
    (rest : Queue (Entry Int)) : Priced g (x.select slot record rest) := by
  intro i other hother
  simp only [Exploration.select, getElem?_replace hrecord] at hother
  split at hother
  · cases hother
    exact hx slot record hrecord
  · exact hx i other hother

theorem Settled.priority_le (hx : Settled g start level x)
    (hpop : x.queue.popAccepted Entry.before (current x.records) = some ((slot, record), rest))
    {i : Nat} {other : Record Node Int} (hother : x.records[i]? = some other)
    (hopen : other.closed = false) : record.priority ≤ other.priority :=
  hx.scheduled.priority_le hpop hother hopen

/-- A selection raises the level to the priority of its record. -/
theorem Settled.leveled_select (hx : Settled g start level x)
    (hpop : x.queue.popAccepted Entry.before (current x.records) = some ((slot, record), rest))
    (hrecord : x.records[slot]? = some record) (hopen : record.closed = false) :
    Leveled g record.priority (x.select slot record rest) := by
  refine ⟨hx.leveled.priced.select hrecord rest, ?_, ?_⟩
  · intro i other hother hclosed
    rcases (closed_select_iff hrecord hopen rest hclosed).mp hother with ⟨_, rfl⟩ | hold
    · exact Int.le_refl _
    · exact Int.le_trans (hx.leveled.closed_le i other hold hclosed)
        (hx.leveled.le_open slot record hrecord hopen)
  · intro i other hother hstill
    simp only [Exploration.select, getElem?_replace hrecord] at hother
    split at hother
    · cases hother
      cases hstill
    · exact hx.priority_le hpop hother hstill

theorem Known.select {node : Node} {cost : Int} (hknown : x.Known node cost)
    (hrecord : x.records[slot]? = some record) (rest : Queue (Entry Int)) :
    (x.select slot record rest).Known node cost := by
  obtain ⟨i, other, hother, hnode, hcost⟩ := hknown
  by_cases hi : i = slot
  · subst hi
    rw [hrecord] at hother
    cases hother
    exact ⟨i, record.close, by simp [Exploration.select, getElem?_replace hrecord], hnode, hcost⟩
  · refine ⟨i, other, ?_, hnode, hcost⟩
    simp [Exploration.select, getElem?_replace hrecord, hi, hother]

theorem Settled.step [LawfulBEq Key] (hest : g.Consistent start)
    (hinj : Set.InjOn g.key {node | g.Reachable start node}) {y : Exploration Node Key Int}
    (hx : Settled g start level x) (h : x.step g = .expanded y) :
    ∃ raised, Settled g start raised y := by
  have hcovering := hx.covering.step h
  have hordered := (hx.scheduled.step h).ordered
  obtain ⟨slot, record, rest, hpop, hrecord, hopen, _, rfl⟩ := of_step_eq_expanded h
  have hexpandable : Expandable g start record.priority record.close :=
    ⟨hest, hinj, hx.covering.live.reachable slot record hrecord,
      hx.leveled.priority_eq slot record hrecord⟩
  obtain ⟨hleveled, hkept, hall⟩ :=
    foldl_discover_known slot (hx.covering.live.select hpop hrecord)
      (hx.leveled_select hpop hrecord hopen) hexpandable (fun _ hnode => hnode)
  have hknown : ∀ node cost, x.Known node cost →
      ((x.select slot record rest).expand g slot record.close).Known node cost := by
    intro node cost hold
    exact hkept node cost (hold.select hrecord rest)
  refine ⟨record.priority, hcovering, hordered, ⟨hleveled.1, hleveled.2, hleveled.3⟩,
    hknown start 0 hx.start_known, ?_⟩
  intro i other hother hclosed node hnode
  rcases (closed_expand_iff hrecord hopen rest hclosed).mp hother with ⟨_, rfl⟩ | hold
  · exact hall node hnode
  · exact hknown node _ (hx.relaxed i other hold hclosed node hnode)

/-- Along a walk to a goal on which every node is known at no more than the cost over the closed
record in front of it, there is an open record with a priority that is no higher than the cost of
the walk. -/
theorem Covering.exists_open (hx : Covering g start x) (hpriced : Priced g x) {goal : Node}
    (hgoal : g.isGoal goal = true)
    (hest : ∀ node walk, g.Reachable start node → g.IsWalk node goal walk →
      g.estimate node ≤ g.costAlong 0 walk)
    {walk : List Node} {a : Node} {cost : Int} (ha : x.Known a cost) (hwalk : g.IsWalk a goal walk)
    (hnext : walk.IsChain fun a b => b ∈ g.neighbors a → ∀ (slot : Nat) (record : Record Node Int),
      x.records[slot]? = some record → record.closed = true → record.node = a →
      x.Known b (record.cost + g.distance a b)) :
    ∃ (slot : Nat) (record : Record Node Int), x.records[slot]? = some record ∧
      record.closed = false ∧ record.priority ≤ g.costAlong cost walk := by
  induction walk generalizing a cost with
  | nil => cases hwalk.head_eq
  | cons first rest ih =>
      obtain rfl : first = a := by simpa using hwalk.head_eq
      obtain ⟨slot, record, hrecord, rfl, hcost⟩ := ha
      have hreach := hx.live.reachable slot record hrecord
      cases hclosed : record.closed with
      | false =>
          refine ⟨slot, record, hrecord, hclosed, ?_⟩
          have hpriority := hpriced slot record hrecord
          have hest_le := hest record.node _ hreach hwalk
          rw [g.costAlong_eq_add cost]
          omega
      | true =>
          cases rest with
          | nil =>
              obtain rfl : record.node = goal := by simpa using hwalk.last_eq
              have hnot := hx.not_goal slot record hrecord hclosed
              rw [hgoal] at hnot
              cases hnot
          | cons second rest =>
              have hlinked := List.isChain_cons_cons.mp hwalk.linked
              have hlast : (second :: rest).getLast? = some goal := by simpa using hwalk.last_eq
              rw [List.isChain_cons_cons] at hnext
              have hknown := hnext.1 hlinked.1 slot record hrecord hclosed rfl
              rw [CostGraph.costAlong]
              exact ih (hknown.mono (by omega)) ⟨rfl, hlinked.2, hlast⟩ hnext.2

theorem Settled.exists_open (hest : g.Consistent start) (hx : Settled g start level x)
    {goal : Node} (hgoal : g.isGoal goal = true) {walk : List Node} {a : Node} {cost : Int}
    (ha : x.Known a cost) (hwalk : g.IsWalk a goal walk) :
    ∃ (slot : Nat) (record : Record Node Int), x.records[slot]? = some record ∧
      record.closed = false ∧ record.priority ≤ g.costAlong cost walk := by
  refine hx.covering.exists_open hx.leveled.priced hgoal ?_ ha hwalk (hwalk.linked.imp ?_)
  · intro node other hreach hother
    have hle := hest.add_estimate_le hgoal hreach hother 0
    omega
  · rintro _ b _ hb slot record hrecord hclosed rfl
    exact hx.relaxed slot record hrecord hclosed b hb

end Selections

end Exploration

namespace CostGraph

variable [BEq Key] [LawfulBEq Key] [Hashable Key] {g : CostGraph Node Key Int} {start : Node}
  {limit : Nat}

/-- The state in which a search selects its goal. -/
theorem exists_settled_of_reached (hest : g.Consistent start)
    (hinj : Set.InjOn g.key {node | g.Reachable start node}) {records : Array (Record Node Int)}
    {slot : Nat} (h : (g.search limit start).verdict = .reached records slot) :
    ∃ (x : Exploration Node Key Int) (level : Int) (goal : Record Node Int)
      (rest : Queue (Entry Int)), x.Settled g start level ∧
        x.queue.popAccepted Entry.before (Exploration.current x.records) =
          some ((slot, goal), rest) ∧
        x.records[slot]? = some goal ∧ records[slot]? = some goal.close := by
  have hstep : ∀ x y : Exploration Node Key Int, (∃ level, x.Settled g start level) →
      x.step g = .expanded y → ∃ level, y.Settled g start level := by
    rintro x y ⟨level, hx⟩ hxy
    exact hx.step hest hinj hxy
  obtain ⟨x, goal, rest, ⟨level, hx⟩, hpop, hgoal, _, _, heq⟩ :=
    exists_selection_of_reached hstep ⟨_, Exploration.settled_start g start⟩ h
  rw [heq] at h
  cases h
  refine ⟨x, level, goal, rest, hx, hpop, hgoal, ?_⟩
  simp [Exploration.select, Exploration.getElem?_replace hgoal]

/-- The path that a search finds is a shortest walk from the start to any goal. -/
theorem path_shortest (hest : g.Consistent start)
    (hinj : Set.InjOn g.key {node | g.Reachable start node})
    (hpath : (g.search limit start).path ≠ []) :
    (∃ goal, g.isGoal goal = true ∧ g.IsWalk start goal (g.search limit start).path) ∧
      ∀ goal walk, g.isGoal goal = true → g.IsWalk start goal walk →
        g.costAlong 0 (g.search limit start).path ≤ g.costAlong 0 walk := by
  obtain ⟨records, slot, hverdict⟩ := path_ne_nil_iff.mp hpath
  obtain ⟨last, hlast, hgoal, _, hroute⟩ := isRoute_of_reached hverdict
  refine ⟨⟨last.node, hgoal, hroute.head_eq, hroute.linked, hroute.last_eq⟩, ?_⟩
  intro goal walk hend hwalk
  obtain ⟨x, level, record, rest, hx, hpop, hrecord, hclose⟩ :=
    exists_settled_of_reached hest hinj hverdict
  obtain rfl : last = record.close := by
    rw [hlast] at hclose
    exact Option.some.inj hclose
  obtain ⟨i, other, hother, hopen, hle⟩ := hx.exists_open hest hend hx.start_known hwalk
  have hcost : record.cost = g.costAlong 0 (g.search limit start).path := hroute.cost_eq
  have hpriority := hx.leveled.priority_eq slot record hrecord
  have hestimate := hest.estimate_goal record.node
    (hx.covering.live.reachable slot record hrecord) hgoal
  have hfirst := hx.priority_le hpop hother hopen
  omega

end CostGraph

/-- The last edge gives back two of what was paid before. -/
def rebate : CostGraph Nat Nat where
  key n := n
  isGoal n := n == 3
  distance a b := if a == 0 && b == 1 then 5 else if b == 3 then -2 else 1
  estimate n := if n == 1 then -2 else if n == 2 then -1 else 0
  neighbors n :=
    match n with
    | 0 => [1, 2]
    | 1 => [3, 0]
    | 2 => [1]
    | _ => []

theorem rebate_path_shortest :
    (rebate.search 5 0).path = [0, 2, 1, 3] ∧
      ∀ goal walk, rebate.isGoal goal = true → rebate.IsWalk 0 goal walk →
        0 ≤ rebate.costAlong 0 walk := by
  have hpath : (rebate.search 5 0).path = [0, 2, 1, 3] := by
    simp +decide [rebate, CostGraph.search, CostGraph.run, Exploration.start, Exploration.step,
      Exploration.expand, Exploration.discover, Exploration.current, Queue.popAccepted,
      Queue.insert, Queue.merge, Queue.join, Queue.rank, Outcome.path, traceBack,
      Std.HashMap.getElem_insert]
  have hest : rebate.Consistent 0 := by
    refine ⟨?_, ?_⟩
    · intro a _ b hb
      have hedges : ∀ a < 3, ∀ b ∈ rebate.neighbors a,
          rebate.estimate a ≤ rebate.distance a b + rebate.estimate b := by decide
      by_cases ha : a < 3
      · exact hedges a ha b hb
      · obtain ⟨k, rfl⟩ : ∃ k, a = k + 3 := ⟨a - 3, by omega⟩
        cases hb
    · intro goal _ hgoal
      have heq : goal = 3 := by simpa [rebate] using hgoal
      rw [heq]
      rfl
  have hinj : Set.InjOn rebate.key {node | rebate.Reachable 0 node} := by
    intro a _ b _ hkey
    exact hkey
  have hnonempty : (rebate.search 5 0).path ≠ [] := by simp [hpath]
  obtain ⟨_, hshortest⟩ := CostGraph.path_shortest hest hinj hnonempty
  rw [hpath] at hshortest
  exact ⟨hpath, hshortest⟩

end QueensPuzzle.Search
