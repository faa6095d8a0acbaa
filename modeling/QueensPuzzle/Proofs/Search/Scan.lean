import QueensPuzzle.Proofs.Search.Selection

/-! # Best-first search without a queue

The same search told by its records alone: the record to be closed next and the record of a
key are looked for among all records, each time anew. The queue with its outdated entries and
the slots of the keys are ways to find them faster. With or without them the search asks the
same questions in the same order and comes to the same end.
-/

namespace QueensPuzzle.Search

variable {Node Key Cost : Type}

/-- Whether a record is to be closed before another: it has the lower priority or, where they
have the same one, was discovered later. -/
def Record.precedes [Ord Cost] (a b : Record Node Cost) : Bool :=
  match compare a.priority b.priority with
  | .lt => true
  | .eq => b.stamp < a.stamp
  | .gt => false

/-- The first record with some property, and its slot. -/
def firstWith (p : Record Node Cost → Bool) (records : Array (Record Node Cost)) :
    Option (Nat × Record Node Cost) :=
  (records.findFinIdx? p).map fun slot => (slot.val, records[slot])

theorem firstWith_eq_none_iff {p : Record Node Cost → Bool} {records : Array (Record Node Cost)} :
    firstWith p records = none ↔
      ∀ (i : Nat) (record : Record Node Cost), records[i]? = some record → p record = false := by
  simp only [firstWith, Option.map_eq_none_iff, Array.findFinIdx?_eq_none_iff,
    Array.mem_iff_getElem?, forall_exists_index, Bool.not_eq_true]
  exact forall_comm

theorem firstWith_eq_some {p : Record Node Cost → Bool} {records : Array (Record Node Cost)}
    {slot : Nat} {record : Record Node Cost} (hrecord : records[slot]? = some record)
    (hp : p record = true)
    (hfirst : ∀ (i : Nat) (other : Record Node Cost), records[i]? = some other → p other = true →
      slot ≤ i) :
    firstWith p records = some (slot, record) := by
  obtain ⟨hbound, hget⟩ := Array.getElem?_eq_some_iff.mp hrecord
  have hfind : records.findFinIdx? p = some ⟨slot, hbound⟩ := by
    rw [Array.findFinIdx?_eq_some_iff]
    refine ⟨by simpa [hget] using hp, ?_⟩
    intro i hi hpi
    have hle := hfirst i records[i] (Array.getElem?_eq_getElem i.isLt) hpi
    have hlt : i.val < slot := hi
    omega
  simp [firstWith, hfind, hget]

/-- A best-first search that keeps nothing but its records. -/
structure Scan (Node Cost : Type) where
  records : Array (Record Node Cost)
  /-- Number of the latest discovery. -/
  stamp : Nat
  tests : Array Node
  expansions : Array (Expansion Node)

namespace Scan

section Definitions

variable [BEq Key] [Add Cost] [Ord Cost] [Inhabited Cost]

def start (g : CostGraph Node Key Cost) (node : Node) : Scan Node Cost where
  records := #[⟨node, false, default, g.estimate node, none, 0⟩]
  stamp := 0
  tests := #[]
  expansions := #[]

/-- Whether a record is open and none of the open records precedes it. -/
def isNext (records : Array (Record Node Cost)) (record : Record Node Cost) : Bool :=
  !record.closed && records.all fun other => other.closed || !other.precedes record

/-- Takes in one neighbor of the closed record `origin`. Without a record of its key it gets a
new one; an open record is replaced when the new priority is strictly lower. -/
def discover (g : CostGraph Node Key Cost) (source : Nat) (origin : Record Node Cost)
    (s : Scan Node Cost) (node : Node) : Scan Node Cost :=
  let cost := origin.cost + g.distance origin.node node
  let new := ⟨node, false, cost, cost + g.estimate node, some source, s.stamp + 1⟩
  match firstWith (fun known => g.key known.node == g.key node) s.records with
  | none => { s with records := s.records.push new, stamp := s.stamp + 1 }
  | some (slot, known) =>
      if !known.closed && compare new.priority known.priority == .lt then
        { s with records := s.records.setIfInBounds slot new, stamp := s.stamp + 1 }
      else s

/-- Takes in the neighbors of a closed record in their order. -/
def expand (g : CostGraph Node Key Cost) (s : Scan Node Cost) (slot : Nat)
    (record : Record Node Cost) : Scan Node Cost :=
  let t := (g.neighbors record.node).foldl (discover g slot record) s
  { t with expansions := t.expansions.push ⟨slot, record.node, t.records.size⟩ }

/-- Closes the next open record and asks whether it is a goal; if not, expands it. Without an
open record the search is over. -/
def step (g : CostGraph Node Key Cost) (s : Scan Node Cost) : Outcome Node Cost ⊕ Scan Node Cost :=
  match firstWith (isNext s.records) s.records with
  | none => .inl ⟨.exhausted, s.tests, s.expansions⟩
  | some (slot, record) =>
      let closed := { record with closed := true }
      let records := s.records.setIfInBounds slot closed
      let tests := s.tests.push record.node
      if g.isGoal record.node then .inl ⟨.reached records slot, tests, s.expansions⟩
      else .inr (expand g { s with records, tests } slot closed)

def run (g : CostGraph Node Key Cost) : Nat → Scan Node Cost → Outcome Node Cost
  | 0, s => ⟨.cutOff, s.tests, s.expansions⟩
  | limit + 1, s =>
      match s.step g with
      | .inl outcome => outcome
      | .inr next => run g limit next

end Definitions

end Scan

/-- Searches from a node without a queue, with at most `limit` selections. -/
def CostGraph.scan [BEq Key] [Add Cost] [Ord Cost] [Inhabited Cost] (g : CostGraph Node Key Cost)
    (limit : Nat) (start : Node) : Outcome Node Cost :=
  (Scan.start g start).run g limit

/-! ## The next record -/

section Next

variable [Ord Cost] {a b : Record Node Cost} {i j : Nat}

theorem precedes_iff :
    a.precedes b = true ↔ compare a.priority b.priority = .lt ∨
      compare a.priority b.priority = .eq ∧ b.stamp < a.stamp := by
  unfold Record.precedes
  cases compare a.priority b.priority <;> simp

theorem not_precedes_of_before [Std.OrientedOrd Cost]
    (h : (a.entry i).before (b.entry j) = true) : b.precedes a = false := by
  have hab := Entry.before_iff.mp h
  simp only [Record.entry] at hab
  rw [← Bool.not_eq_true, precedes_iff, Std.OrientedOrd.eq_swap]
  rcases hab with hlower | ⟨hsame, hlater⟩
  · simp [hlower]
  · have hle : b.stamp ≤ a.stamp := by omega
    simpa [hsame] using hle

theorem precedes_or_le_of_before (h : (a.entry i).before (b.entry j) = true) :
    a.precedes b = true ∨ i ≤ j := by
  have hab := Entry.before_iff.mp h
  simp only [Record.entry] at hab
  rw [precedes_iff]
  rcases hab with hlower | ⟨hsame, hlater | ⟨_, hle⟩⟩
  · exact Or.inl (Or.inl hlower)
  · exact Or.inl (Or.inr ⟨hsame, hlater⟩)
  · exact Or.inr hle

end Next

theorem Scan.isNext_iff [Ord Cost] {records : Array (Record Node Cost)}
    {record : Record Node Cost} :
    isNext records record = true ↔ record.closed = false ∧
      ∀ (i : Nat) (other : Record Node Cost), records[i]? = some other → other.closed = false →
        other.precedes record = false := by
  simp only [isNext, Bool.and_eq_true, Bool.not_eq_true', Array.all_eq_true', Bool.or_eq_true,
    Array.mem_iff_getElem?, forall_exists_index]
  refine and_congr_right fun _ => ?_
  rw [forall_comm]
  refine forall_congr' fun i => forall_congr' fun other => imp_congr_right fun _ => ?_
  cases other.closed <;> simp

namespace Exploration

variable [BEq Key] [Hashable Key] {g : CostGraph Node Key Cost} {start : Node}
  {x : Exploration Node Key Cost}

/-- What is left of a search without its queue and its slots. -/
def scan (x : Exploration Node Key Cost) : Scan Node Cost :=
  ⟨x.records, x.stamp, x.tests, x.expansions⟩

/-- What is left of a step. -/
def Step.scan : Step Node Key Cost → Outcome Node Cost ⊕ Scan Node Cost
  | .ended outcome => .inl outcome
  | .expanded next => .inr next.scan

/-- The record that comes to the top of the queue is the one that a scan finds. -/
theorem Scheduled.firstWith_isNext [Ord Cost] [Std.TransOrd Cost] (hx : Scheduled g start x)
    {slot : Nat} {record : Record Node Cost} {rest : Queue (Entry Cost)}
    (hpop : x.queue.popAccepted Entry.before (current x.records) = some ((slot, record), rest))
    (hrecord : x.records[slot]? = some record) (hopen : record.closed = false) :
    firstWith (Scan.isNext x.records) x.records = some (slot, record) := by
  apply firstWith_eq_some hrecord
  · rw [Scan.isNext_iff]
    refine ⟨hopen, ?_⟩
    intro i other hother hclosed
    exact not_precedes_of_before (hx.before_of_open hpop hother hclosed)
  · intro i other hother hnext
    obtain ⟨hclosed, hnone⟩ := Scan.isNext_iff.mp hnext
    rcases precedes_or_le_of_before (hx.before_of_open hpop hother hclosed) with hprecedes | hle
    · have hnot := hnone slot record hrecord hopen
      rw [hprecedes] at hnot
      cases hnot
    · exact hle

/-! ## The record of a key -/

theorem Indexed.firstWith_key [LawfulBEq Key] (hx : Indexed g x) {key : Key} {slot : Nat}
    (hslot : x.slots[key]? = some slot) {record : Record Node Cost}
    (hrecord : x.records[slot]? = some record) :
    firstWith (fun known => g.key known.node == key) x.records = some (slot, record) := by
  have hkey : g.key record.node = key := by
    obtain ⟨known, hknown, hkey⟩ := (hx key slot).mp hslot
    rw [hrecord] at hknown
    cases hknown
    exact hkey
  apply firstWith_eq_some hrecord
  · rw [hkey, beq_self_eq_true]
  · intro i other hother hsame
    have heq := hx.slot_unique hrecord hother (hkey.trans (beq_iff_eq.mp hsame).symm)
    exact Nat.le_of_eq heq

theorem Indexed.firstWith_key_eq_none [LawfulBEq Key] (hx : Indexed g x) {key : Key}
    (hnone : x.slots[key]? = none) :
    firstWith (fun known => g.key known.node == key) x.records = none := by
  rw [firstWith_eq_none_iff]
  intro i record hrecord
  apply eq_false_of_ne_true
  intro hsame
  have hslot := (hx key i).mpr ⟨record, hrecord, beq_iff_eq.mp hsame⟩
  rw [hnone] at hslot
  cases hslot

/-! ## Steps -/

section Steps

variable [LawfulBEq Key] [Add Cost] [Ord Cost]

/-- Without the slots a discovery does to the records what it does with them. -/
theorem scan_discover [Std.OrientedOrd Cost] (hx : Indexed g x) {source : Nat}
    {origin : Record Node Cost} (node : Node) :
    (discover g source origin x node).scan = Scan.discover g source origin x.scan node := by
  unfold Scan.discover
  rcases discover_cases g source origin x node with
    ⟨hnone, heq⟩ | ⟨slot, known, hslot, hknown, hopen, hhigher, heq⟩ | ⟨slot, hslot, hkept, heq⟩
  · simp only [scan, heq, hx.firstWith_key_eq_none hnone]
    rfl
  · have hlower := Std.OrientedCmp.lt_of_not_isLE (ne_true_of_eq_false hhigher)
    simp only [offer] at hlower
    simp [scan, heq, hx.firstWith_key hslot hknown, hopen, hlower, offer]
  · obtain ⟨known, hknown, _⟩ := (hx _ slot).mp hslot
    simp only [scan, heq, hx.firstWith_key hslot hknown]
    refine (if_neg ?_).symm
    rcases hkept known hknown with hclosed | hle
    · simp [hclosed]
    · have hnot := Std.OrientedCmp.not_lt_of_isLE hle
      simp only [offer] at hnot
      simp [hnot]

theorem scan_foldl_discover [Std.OrientedOrd Cost] (hx : Indexed g x) {source : Nat}
    {origin : Record Node Cost} (nodes : List Node) :
    (nodes.foldl (discover g source origin) x).scan =
      nodes.foldl (Scan.discover g source origin) x.scan := by
  induction nodes generalizing x with
  | nil => rfl
  | cons node nodes ih =>
      rw [List.foldl_cons, List.foldl_cons, ih (hx.discover node), scan_discover hx]

theorem scan_expand [Std.OrientedOrd Cost] (hx : Indexed g x) (slot : Nat)
    (record : Record Node Cost) : (x.expand g slot record).scan = x.scan.expand g slot record := by
  rw [Scan.expand, ← scan_foldl_discover hx, expand_eq]
  rfl

/-- Both searches take the same step. -/
theorem Scheduled.scan_step [Std.TransOrd Cost] (hx : Scheduled g start x) :
    x.scan.step g = (x.step g).scan := by
  unfold Scan.step
  rcases step_cases g x with ⟨hnone, heq⟩ | ⟨slot, record, rest, hpop, hrecord, hopen, hend⟩
  · have hfirst : firstWith (Scan.isNext x.records) x.records = none := by
      rw [firstWith_eq_none_iff]
      intro i other hother
      simp [Scan.isNext, hx.live.closed_of_exhausted hnone i other hother]
    simp only [scan, heq, hfirst, Step.scan]
  · have hfirst := hx.firstWith_isNext hpop hrecord hopen
    have hindexed := hx.live.indexed.select hrecord rest
    rcases hend with ⟨hgoal, heq⟩ | ⟨hgoal, heq⟩
    · simp only [scan, heq, hfirst, hgoal, Step.scan, if_true]
      rfl
    · simp only [heq, Step.scan, scan_expand hindexed]
      simp only [scan, hfirst, hgoal]
      rfl

end Steps

end Exploration

namespace CostGraph

variable [BEq Key] [LawfulBEq Key] [Hashable Key] [Add Cost] [Ord Cost] [Std.TransOrd Cost]
  [Inhabited Cost] {g : CostGraph Node Key Cost} {start : Node}

omit [Inhabited Cost] in
theorem run_eq_scan_run {x : Exploration Node Key Cost} (hx : x.Scheduled g start) (limit : Nat) :
    g.run limit x = x.scan.run g limit := by
  induction limit generalizing x with
  | zero => rfl
  | succ limit ih =>
      have hstep := hx.scan_step
      unfold run Scan.run
      cases h : x.step g with
      | ended outcome => simp [hstep, h, Exploration.Step.scan]
      | expanded next =>
          simp only [hstep, h, Exploration.Step.scan]
          exact ih (hx.step h)

/-- On a graph with finitely many keys in reach the search comes to an end, and this is the end
of the search without a queue: the same path after the same tests and the same expansions, in
the same order. -/
theorem search_eq_scan (hfinite : (g.reachableKeys start).Finite) {limit : Nat}
    (hlimit : (g.reachableKeys start).ncard < limit) :
    (g.search limit start).verdict ≠ .cutOff ∧ g.search limit start = g.scan limit start :=
  ⟨verdict_ne_cutOff hfinite hlimit, run_eq_scan_run (Exploration.scheduled_start g start) limit⟩

end CostGraph

/-- The record for 1 is replaced and is then closed before the one for 3, which has the same
priority and was discovered in between. -/
def relay : CostGraph Nat Nat where
  key n := n
  isGoal n := n == 4
  distance a b := if a == 0 && b == 1 then 3 else 1
  estimate _ := 0
  neighbors n :=
    match n with
    | 0 => [1, 2, 2, 0]
    | 1 => [3, 4]
    | 2 => [3, 1]
    | 3 => [4]
    | _ => []

theorem relay_search_eq_scan :
    relay.search 6 0 = relay.scan 6 0 ∧ (relay.search 6 0).path = [0, 2, 1, 4] ∧
      (relay.search 6 0).tested = [0, 2, 1, 3, 4] := by
  have hbound : ∀ node, relay.Reachable 0 node → node < 5 := by
    intro node hnode
    cases hnode with
    | refl => decide
    | @tail before _ _ hlast =>
        simp only [relay] at hlast
        split at hlast <;> simp at hlast <;> omega
  have hsub : relay.reachableKeys 0 ⊆ ↑(Finset.range 5) := by
    rintro key ⟨node, hnode, rfl⟩
    exact Finset.mem_coe.mpr (Finset.mem_range.mpr (hbound node hnode))
  have hcard := Set.ncard_le_ncard hsub (Finset.range 5).finite_toSet
  rw [Set.ncard_coe_finset, Finset.card_range] at hcard
  have hlimit : (relay.reachableKeys 0).ncard < 6 := by omega
  obtain ⟨_, heq⟩ := CostGraph.search_eq_scan ((Finset.range 5).finite_toSet.subset hsub) hlimit
  refine ⟨heq, ?_, ?_⟩
  · rw [heq]
    decide +kernel
  · rw [heq]
    decide +kernel

end QueensPuzzle.Search
