import QueensPuzzle.Search.BestFirst

/-! # What a best-first search does to its records

One discovery adds a record, replaces an open one or changes nothing, and one selection
ends the search or closes an open record and takes in its neighbors. Both are stated once,
as case distinctions. Whatever is taken in, closed records stay, slots stay with their keys
and the notes of the search stay as they are.
-/

namespace QueensPuzzle.Search

variable {Node Key Cost : Type}

/-- The entry that stands for a record as long as the record is not replaced. -/
def Record.entry (record : Record Node Cost) (slot : Nat) : Entry Cost :=
  ⟨record.priority, record.stamp, slot⟩

/-- The record closed. -/
def Record.close (record : Record Node Cost) : Record Node Cost := { record with closed := true }

@[simp] theorem Record.closed_close (record : Record Node Cost) : record.close.closed = true := rfl

@[simp] theorem Record.node_close (record : Record Node Cost) :
    record.close.node = record.node := rfl

namespace Exploration

variable [BEq Key] [Hashable Key]

section Selection

variable [Ord Cost]

theorem current_eq_some {records : Array (Record Node Cost)} {entry : Entry Cost} {slot : Nat}
    {record : Record Node Cost} (h : current records entry = some (slot, record)) :
    slot = entry.slot ∧ records[slot]? = some record ∧ record.closed = false := by
  unfold current at h
  split at h
  · rename_i found hfound
    split at h
    · rename_i haccept
      simp only [Option.some.injEq, Prod.mk.injEq] at h
      obtain ⟨rfl, rfl⟩ := h
      simp only [Bool.and_eq_true, Bool.not_eq_true'] at haccept
      exact ⟨rfl, hfound, haccept.1.1⟩
    · cases h
  · cases h

/-- The entry of an open record is not outdated. -/
theorem current_entry [Std.ReflOrd Cost] {records : Array (Record Node Cost)} {slot : Nat}
    {record : Record Node Cost} (hrecord : records[slot]? = some record)
    (hopen : record.closed = false) :
    current records (record.entry slot) = some (slot, record) := by
  simp [current, Record.entry, hrecord, hopen]

end Selection

/-- The record that a node gets when it is discovered from `origin`. -/
def offer [Add Cost] (g : CostGraph Node Key Cost) (source : Nat) (origin : Record Node Cost)
    (stamp : Nat) (node : Node) : Record Node Cost :=
  let cost := origin.cost + g.distance origin.node node
  ⟨node, false, cost, cost + g.estimate node, some source, stamp + 1⟩

/-- The search with an open record closed and tested, and with `rest` for its queue. -/
def select (x : Exploration Node Key Cost) (slot : Nat) (record : Record Node Cost)
    (rest : Queue (Entry Cost)) : Exploration Node Key Cost :=
  { x with
    records := x.records.setIfInBounds slot record.close
    queue := rest
    tests := x.tests.push record.node }

section Cases

variable [Add Cost] [Ord Cost]

/-- All that one discovery can do. -/
theorem discover_cases (g : CostGraph Node Key Cost) (source : Nat) (origin : Record Node Cost)
    (x : Exploration Node Key Cost) (node : Node) :
    let new := offer g source origin x.stamp node
    (x.slots[g.key node]? = none ∧
      discover g source origin x node =
        { x with
          records := x.records.push new
          slots := x.slots.insert (g.key node) x.records.size
          queue := x.queue.insert Entry.before (new.entry x.records.size)
          stamp := x.stamp + 1 }) ∨
    (∃ slot known, x.slots[g.key node]? = some slot ∧ x.records[slot]? = some known ∧
      known.closed = false ∧ (compare known.priority new.priority).isLE = false ∧
      discover g source origin x node =
        { x with
          records := x.records.setIfInBounds slot new
          queue := x.queue.insert Entry.before (new.entry slot)
          stamp := x.stamp + 1 }) ∨
    (∃ slot, x.slots[g.key node]? = some slot ∧
      (∀ known, x.records[slot]? = some known →
        known.closed = true ∨ (compare known.priority new.priority).isLE = true) ∧
      discover g source origin x node = x) := by
  intro new
  cases hslot : x.slots[g.key node]? with
  | none =>
      left
      refine ⟨rfl, ?_⟩
      simp only [discover, hslot]
      rfl
  | some slot =>
      right
      cases hknown : x.records[slot]? with
      | none =>
          right
          refine ⟨slot, rfl, by simp [hknown], ?_⟩
          simp [discover, hslot, hknown]
      | some known =>
          by_cases houtdone :
              known.closed = true ∨ (compare known.priority new.priority).isLE = true
          · right
            refine ⟨slot, rfl, ?_, ?_⟩
            · intro other hother
              rw [hknown] at hother
              cases hother
              exact houtdone
            · have hoffer :
                  (known.closed || (compare known.priority new.priority).isLE) = true := by
                simpa using houtdone
              simp only [discover, hslot, hknown]
              exact if_pos hoffer
          · left
            rw [not_or, Bool.not_eq_true, Bool.not_eq_true] at houtdone
            refine ⟨slot, known, rfl, hknown, houtdone.1, houtdone.2, ?_⟩
            have hoffer : ¬(known.closed || (compare known.priority new.priority).isLE) = true := by
              simp [houtdone.1, houtdone.2]
            simp only [discover, hslot, hknown]
            exact if_neg hoffer

/-- All that one selection can do. -/
theorem step_cases (g : CostGraph Node Key Cost) (x : Exploration Node Key Cost) :
    (x.queue.popAccepted Entry.before (current x.records) = none ∧
      x.step g = .ended ⟨.exhausted, x.tests, x.expansions⟩) ∨
    ∃ slot record rest,
      x.queue.popAccepted Entry.before (current x.records) = some ((slot, record), rest) ∧
      x.records[slot]? = some record ∧ record.closed = false ∧
      let y := x.select slot record rest
      (g.isGoal record.node = true ∧
          x.step g = .ended ⟨.reached y.records slot, y.tests, y.expansions⟩ ∨
        g.isGoal record.node = false ∧ x.step g = .expanded (y.expand g slot record.close)) := by
  cases hpop : x.queue.popAccepted Entry.before (current x.records) with
  | none =>
      left
      refine ⟨rfl, ?_⟩
      simp [step, hpop]
  | some popped =>
      obtain ⟨⟨slot, record⟩, rest⟩ := popped
      right
      obtain ⟨_, entry, hentry, _, _⟩ := Queue.exists_of_popAccepted_eq_some hpop
      obtain ⟨_, hrecord, hopen⟩ := current_eq_some hentry
      refine ⟨slot, record, rest, rfl, hrecord, hopen, ?_⟩
      cases hgoal : g.isGoal record.node with
      | true =>
          left
          refine ⟨rfl, ?_⟩
          simp [step, hpop, hgoal, select, Record.close]
      | false =>
          right
          refine ⟨rfl, ?_⟩
          simp [step, hpop, hgoal, select, Record.close]

theorem of_step_eq_expanded {g : CostGraph Node Key Cost} {x y : Exploration Node Key Cost}
    (h : x.step g = .expanded y) :
    ∃ slot record rest,
      x.queue.popAccepted Entry.before (current x.records) = some ((slot, record), rest) ∧
      x.records[slot]? = some record ∧ record.closed = false ∧ g.isGoal record.node = false ∧
      y = (x.select slot record rest).expand g slot record.close := by
  rcases step_cases g x with ⟨_, heq⟩ | ⟨slot, record, rest, hpop, hrecord, hopen, hend⟩
  · rw [heq] at h
    cases h
  · rcases hend with ⟨_, heq⟩ | ⟨hgoal, heq⟩
    · rw [heq] at h
      cases h
    · rw [heq] at h
      exact ⟨slot, record, rest, hpop, hrecord, hopen, hgoal, (Step.expanded.inj h).symm⟩

theorem of_step_eq_ended {g : CostGraph Node Key Cost} {x : Exploration Node Key Cost}
    {outcome : Outcome Node Cost} (h : x.step g = .ended outcome) :
    (x.queue.popAccepted Entry.before (current x.records) = none ∧
      outcome = ⟨.exhausted, x.tests, x.expansions⟩) ∨
    ∃ slot record rest,
      x.queue.popAccepted Entry.before (current x.records) = some ((slot, record), rest) ∧
      x.records[slot]? = some record ∧ record.closed = false ∧ g.isGoal record.node = true ∧
      outcome = ⟨.reached (x.select slot record rest).records slot, x.tests.push record.node,
        x.expansions⟩ := by
  rcases step_cases g x with ⟨hnone, heq⟩ | ⟨slot, record, rest, hpop, hrecord, hopen, hend⟩
  · rw [heq] at h
    exact Or.inl ⟨hnone, (Step.ended.inj h).symm⟩
  · rcases hend with ⟨hgoal, heq⟩ | ⟨_, heq⟩
    · rw [heq] at h
      exact Or.inr ⟨slot, record, rest, hpop, hrecord, hopen, hgoal, (Step.ended.inj h).symm⟩
    · rw [heq] at h
      cases h

theorem expand_eq (g : CostGraph Node Key Cost) (x : Exploration Node Key Cost) (slot : Nat)
    (record : Record Node Cost) :
    x.expand g slot record =
      let y := (g.neighbors record.node).foldl (discover g slot record) x
      { y with expansions := y.expansions.push ⟨slot, record.node, y.records.size⟩ } := rfl

end Cases

/-! ## What stays -/

theorem getElem?_replace {records : Array (Record Node Cost)} {slot : Nat}
    {known : Record Node Cost} (hknown : records[slot]? = some known) (new : Record Node Cost)
    (i : Nat) :
    (records.setIfInBounds slot new)[i]? = if i = slot then some new else records[i]? := by
  have hbound : slot < records.size := (Array.getElem?_eq_some_iff.mp hknown).choose
  rw [Array.getElem?_setIfInBounds]
  by_cases hi : slot = i
  · simp [hi, hi ▸ hbound]
  · simp [hi, Ne.symm hi]

theorem getElem?_push_of_some {records : Array (Record Node Cost)} {i : Nat}
    {record : Record Node Cost} (new : Record Node Cost) (h : records[i]? = some record) :
    (records.push new)[i]? = some record := by
  have hbound : i < records.size := (Array.getElem?_eq_some_iff.mp h).choose
  rw [Array.getElem?_push_lt hbound]
  exact Array.getElem?_eq_getElem hbound ▸ h

/-- A later state of the same search: every discovery goes from one such state to the next. -/
structure Extends (x y : Exploration Node Key Cost) : Prop where
  /-- Closed records stay as they are, and no further record is closed. -/
  closed_iff : ∀ (slot : Nat) (record : Record Node Cost), record.closed = true →
    (y.records[slot]? = some record ↔ x.records[slot]? = some record)
  slots_mono : ∀ (key : Key) (slot : Nat), x.slots[key]? = some slot → y.slots[key]? = some slot
  /-- No entry leaves the queue. -/
  queue_mono : ∀ entry ∈ x.queue.toList, entry ∈ y.queue.toList
  stamp_le : x.stamp ≤ y.stamp
  tests_eq : y.tests = x.tests

theorem Extends.refl (x : Exploration Node Key Cost) : Extends x x :=
  ⟨fun _ _ _ => Iff.rfl, fun _ _ h => h, fun _ h => h, Nat.le_refl _, rfl⟩

theorem Extends.trans {x y z : Exploration Node Key Cost} (hxy : Extends x y) (hyz : Extends y z) :
    Extends x z where
  closed_iff slot record hclosed :=
    (hyz.closed_iff slot record hclosed).trans (hxy.closed_iff slot record hclosed)
  slots_mono key slot h := hyz.slots_mono key slot (hxy.slots_mono key slot h)
  queue_mono entry h := hyz.queue_mono entry (hxy.queue_mono entry h)
  stamp_le := Nat.le_trans hxy.stamp_le hyz.stamp_le
  tests_eq := hyz.tests_eq.trans hxy.tests_eq

/-! ## Keys and slots -/

variable {g : CostGraph Node Key Cost}

/-- The slots lead from each key that was met to the one record with this key. -/
def Indexed (g : CostGraph Node Key Cost) (x : Exploration Node Key Cost) : Prop :=
  ∀ key slot, x.slots[key]? = some slot ↔
    ∃ record, x.records[slot]? = some record ∧ g.key record.node = key

/-- Two records with the same key are one record. -/
theorem Indexed.slot_unique {x : Exploration Node Key Cost} (hx : Indexed g x) {i j : Nat}
    {a b : Record Node Cost} (ha : x.records[i]? = some a) (hb : x.records[j]? = some b)
    (hkey : g.key a.node = g.key b.node) : i = j := by
  have hi := (hx (g.key a.node) i).mpr ⟨a, ha, rfl⟩
  have hj := (hx (g.key a.node) j).mpr ⟨b, hb, hkey.symm⟩
  rw [hi] at hj
  exact Option.some.inj hj

theorem Indexed.start [LawfulBEq Key] [Ord Cost] [Inhabited Cost] (g : CostGraph Node Key Cost)
    (node : Node) : Indexed g (Exploration.start g node) := by
  intro key slot
  simp only [Exploration.start, Std.HashMap.getElem?_insert, Std.HashMap.getElem?_empty]
  cases slot with
  | zero => simp
  | succ slot => simp

theorem Indexed.select {x : Exploration Node Key Cost} (hx : Indexed g x) {slot : Nat}
    {record : Record Node Cost} (hrecord : x.records[slot]? = some record)
    (rest : Queue (Entry Cost)) : Indexed g (x.select slot record rest) := by
  intro key i
  simp only [Exploration.select]
  rw [hx key i, getElem?_replace hrecord]
  by_cases hi : i = slot
  · subst hi
    simp [hrecord]
  · rw [if_neg hi]

/-- A selection closes one record more. -/
theorem closed_select_iff {x : Exploration Node Key Cost} {slot : Nat} {record : Record Node Cost}
    (hrecord : x.records[slot]? = some record) (hopen : record.closed = false)
    (rest : Queue (Entry Cost)) {i : Nat} {other : Record Node Cost}
    (hclosed : other.closed = true) :
    (x.select slot record rest).records[i]? = some other ↔
      i = slot ∧ other = record.close ∨ x.records[i]? = some other := by
  simp only [Exploration.select, getElem?_replace hrecord]
  by_cases hi : i = slot
  · have hother : x.records[slot]? ≠ some other := by
      rw [hrecord]
      rintro ⟨⟩
      rw [hopen] at hclosed
      cases hclosed
    subst hi
    simp [hother, eq_comm]
  · simp [hi]

/-! ## One discovery after the other -/

section Discoveries

variable [LawfulBEq Key] [Add Cost] [Ord Cost] {source : Nat} {origin : Record Node Cost}

theorem extends_discover (x : Exploration Node Key Cost) (node : Node) :
    Extends x (discover g source origin x node) := by
  rcases discover_cases g source origin x node with
    ⟨hnew, heq⟩ | ⟨slot, known, hslot, hknown, hopen, _, heq⟩ | ⟨_, _, _, heq⟩
  · rw [heq]
    refine ⟨?_, ?_, ?_, Nat.le_succ _, rfl⟩
    · intro slot record hclosed
      constructor
      · intro h
        rw [Array.getElem?_push] at h
        split at h
        · cases h
          cases hclosed
        · exact h
      · exact getElem?_push_of_some _
    · intro key slot h
      have hne : ¬(g.key node == key) = true := by
        intro hkey
        rw [beq_iff_eq] at hkey
        rw [hkey, h] at hnew
        cases hnew
      rw [Std.HashMap.getElem?_insert, if_neg hne]
      exact h
    · intro entry h
      exact (Queue.toList_insert_perm _ _ _).mem_iff.mpr (List.mem_cons_of_mem _ h)
  · rw [heq]
    refine ⟨?_, fun _ _ h => h, ?_, Nat.le_succ _, rfl⟩
    · intro i record hclosed
      rw [getElem?_replace hknown]
      by_cases hi : i = slot
      · rw [if_pos hi, hi, hknown]
        constructor
        · intro h
          cases h
          cases hclosed
        · intro h
          cases h
          rw [hopen] at hclosed
          cases hclosed
      · rw [if_neg hi]
    · intro entry h
      exact (Queue.toList_insert_perm _ _ _).mem_iff.mpr (List.mem_cons_of_mem _ h)
  · rw [heq]
    exact Extends.refl x

theorem extends_foldl_discover (x : Exploration Node Key Cost) (nodes : List Node) :
    Extends x (nodes.foldl (discover g source origin) x) := by
  induction nodes generalizing x with
  | nil => exact Extends.refl x
  | cons node nodes ih => exact (extends_discover x node).trans (ih _)

omit [LawfulBEq Key] in
/-- Every record is an old one or was made by the discovery, which then queued it. -/
theorem record_discover {x : Exploration Node Key Cost} {node : Node} {i : Nat}
    {record : Record Node Cost} (h : (discover g source origin x node).records[i]? = some record) :
    x.records[i]? = some record ∨
      record = offer g source origin x.stamp node ∧
        (discover g source origin x node).stamp = x.stamp + 1 ∧
        record.entry i ∈ (discover g source origin x node).queue.toList := by
  rcases discover_cases g source origin x node with
    ⟨_, heq⟩ | ⟨slot, known, _, hknown, _, _, heq⟩ | ⟨_, _, _, heq⟩
  · rw [heq] at h ⊢
    rw [Array.getElem?_push] at h
    split at h
    · rename_i hi
      cases h
      right
      refine ⟨rfl, rfl, ?_⟩
      rw [hi]
      exact (Queue.toList_insert_perm _ _ _).mem_iff.mpr List.mem_cons_self
    · exact Or.inl h
  · rw [heq] at h ⊢
    rw [getElem?_replace hknown] at h
    split at h
    · rename_i hi
      cases h
      right
      refine ⟨rfl, rfl, ?_⟩
      rw [hi]
      exact (Queue.toList_insert_perm _ _ _).mem_iff.mpr List.mem_cons_self
    · exact Or.inl h
  · rw [heq] at h
    exact Or.inl h

/-- Every neighbor that was taken in has a slot. -/
theorem exists_slot_discover (x : Exploration Node Key Cost) (node : Node) :
    ∃ slot, (discover g source origin x node).slots[g.key node]? = some slot := by
  rcases discover_cases g source origin x node with
    ⟨_, heq⟩ | ⟨slot, _, hslot, _, _, _, heq⟩ | ⟨slot, hslot, _, heq⟩
  · refine ⟨x.records.size, ?_⟩
    rw [heq]
    simp
  · exact ⟨slot, by rw [heq]; exact hslot⟩
  · exact ⟨slot, by rw [heq]; exact hslot⟩

theorem exists_slot_foldl_discover (x : Exploration Node Key Cost) {nodes : List Node}
    {node : Node} (hnode : node ∈ nodes) :
    ∃ slot, (nodes.foldl (discover g source origin) x).slots[g.key node]? = some slot := by
  induction nodes generalizing x with
  | nil => cases hnode
  | cons first nodes ih =>
      rcases List.mem_cons.mp hnode with rfl | hrest
      · have hfirst : ∃ slot, (discover g source origin x node).slots[g.key node]? = some slot :=
          exists_slot_discover x node
        obtain ⟨slot, hslot⟩ := hfirst
        exact ⟨slot, (extends_foldl_discover _ nodes).slots_mono _ _ hslot⟩
      · exact ih _ hrest

theorem Indexed.discover {x : Exploration Node Key Cost} (hx : Indexed g x) (node : Node) :
    Indexed g (discover g source origin x node) := by
  rcases discover_cases g source origin x node with
    ⟨hnew, heq⟩ | ⟨slot, known, hslot, hknown, _, _, heq⟩ | ⟨_, _, _, heq⟩
  · rw [heq]
    intro key slot
    rw [Std.HashMap.getElem?_insert, Array.getElem?_push]
    by_cases hkey : g.key node = key
    · subst hkey
      have hfresh : ∀ (i : Nat) (record : Record Node Cost), x.records[i]? = some record →
          g.key record.node ≠ g.key node := by
        intro i record hrecord hsame
        rw [(hx _ i).mpr ⟨record, hrecord, hsame⟩] at hnew
        cases hnew
      by_cases hslot : slot = x.records.size
      · simp [hslot, offer]
      · simp only [beq_self_eq_true, if_true, Option.some.injEq, hslot, if_false]
        constructor
        · intro h
          exact absurd h.symm hslot
        · rintro ⟨record, hrecord, hsame⟩
          exact absurd hsame (hfresh slot record hrecord)
    · have hne : ¬(g.key node == key) = true := by simpa using hkey
      rw [if_neg hne, hx key slot]
      by_cases hslot : slot = x.records.size
      · subst hslot
        simp [offer, hkey]
      · rw [if_neg hslot]
  · rw [heq]
    intro key i
    rw [getElem?_replace hknown]
    by_cases hi : i = slot
    · subst hi
      obtain ⟨record, hrecord, hkey⟩ := (hx _ i).mp hslot
      rw [hknown] at hrecord
      cases hrecord
      rw [if_pos rfl, hx key i, hknown]
      simp [offer, hkey]
    · rw [if_neg hi]
      exact hx key i
  · rw [heq]
    exact hx

/-! ## Selections -/

theorem extends_expand (x : Exploration Node Key Cost) (slot : Nat) (record : Record Node Cost) :
    Extends x (x.expand g slot record) := by
  have hfold : Extends x ((g.neighbors record.node).foldl (discover g slot record) x) :=
    extends_foldl_discover x _
  exact ⟨hfold.closed_iff, hfold.slots_mono, hfold.queue_mono, hfold.stamp_le, hfold.tests_eq⟩

/-- A selection closes one record, and taking in its neighbors closes none. -/
theorem closed_expand_iff {x : Exploration Node Key Cost} {slot : Nat} {record : Record Node Cost}
    (hrecord : x.records[slot]? = some record) (hopen : record.closed = false)
    (rest : Queue (Entry Cost)) {i : Nat} {other : Record Node Cost}
    (hclosed : other.closed = true) :
    ((x.select slot record rest).expand g slot record.close).records[i]? = some other ↔
      i = slot ∧ other = record.close ∨ x.records[i]? = some other := by
  have hext : Extends (x.select slot record rest)
      ((x.select slot record rest).expand g slot record.close) := extends_expand _ _ _
  rw [hext.closed_iff i other hclosed]
  exact closed_select_iff hrecord hopen rest hclosed

omit [LawfulBEq Key] in
theorem expansions_foldl_discover (x : Exploration Node Key Cost) (nodes : List Node) :
    (nodes.foldl (discover g source origin) x).expansions = x.expansions := by
  induction nodes generalizing x with
  | nil => rfl
  | cons node nodes ih =>
      rw [List.foldl_cons, ih]
      rcases discover_cases g source origin x node with
        ⟨_, heq⟩ | ⟨_, _, _, _, _, _, heq⟩ | ⟨_, _, _, heq⟩ <;> rw [heq]

omit [LawfulBEq Key] in
theorem expansions_expand (x : Exploration Node Key Cost) (slot : Nat)
    (record : Record Node Cost) :
    (x.expand g slot record).expansions =
      x.expansions.push ⟨slot, record.node, (x.expand g slot record).records.size⟩ := by
  rw [← expansions_foldl_discover x (g.neighbors record.node), expand_eq]

omit [LawfulBEq Key] in
theorem size_expansions_step {x y : Exploration Node Key Cost} (h : x.step g = .expanded y) :
    y.expansions.size = x.expansions.size + 1 := by
  obtain ⟨slot, record, rest, _, _, _, _, rfl⟩ := of_step_eq_expanded h
  rw [expansions_expand, Array.size_push]
  rfl

end Discoveries
end Exploration

theorem Exploration.tests_expand_select [BEq Key] [LawfulBEq Key] [Hashable Key] [Add Cost]
    [Ord Cost] (g : CostGraph Node Key Cost) (x : Exploration Node Key Cost) (slot : Nat)
    (record : Record Node Cost) (rest : Queue (Entry Cost)) :
    ((x.select slot record rest).expand g slot record.close).tests = x.tests.push record.node :=
  (extends_expand _ slot record.close).tests_eq

/-- What a run has tested stays noted. -/
theorem CostGraph.tests_isPrefix_run [BEq Key] [LawfulBEq Key] [Hashable Key] [Add Cost] [Ord Cost]
    (g : CostGraph Node Key Cost) (limit : Nat) (x : Exploration Node Key Cost) :
    x.tests.toList <+: (g.run limit x).tested := by
  induction limit generalizing x with
  | zero => exact List.prefix_rfl
  | succ limit ih =>
      rw [run]
      rcases Exploration.step_cases g x with
        ⟨_, heq⟩ | ⟨slot, record, rest, _, _, _, ⟨_, heq⟩ | ⟨_, heq⟩⟩
      · rw [heq]
        exact List.prefix_rfl
      · rw [heq]
        change x.tests.toList <+: (x.tests.push record.node).toList
        rw [Array.toList_push]
        exact List.prefix_append _ _
      · rw [heq]
        have hnext := ih ((x.select slot record rest).expand g slot record.close)
        rw [Exploration.tests_expand_select, Array.toList_push] at hnext
        exact (List.prefix_append _ _).trans hnext

/-- A run that is not over tests the node that is selected next. -/
theorem CostGraph.tests_push_isPrefix_run [BEq Key] [LawfulBEq Key] [Hashable Key] [Add Cost]
    [Ord Cost] {g : CostGraph Node Key Cost} {x : Exploration Node Key Cost} {slot : Nat}
    {record : Record Node Cost} {rest : Queue (Entry Cost)}
    (hpop : x.queue.popAccepted Entry.before (Exploration.current x.records) =
      some ((slot, record), rest)) {limit : Nat} (hlimit : 0 < limit) :
    (x.tests.push record.node).toList <+: (g.run limit x).tested := by
  obtain ⟨limit, rfl⟩ : ∃ k, limit = k + 1 := ⟨limit - 1, by omega⟩
  rw [run]
  rcases Exploration.step_cases g x with ⟨hnone, _⟩ | ⟨_, _, _, hsame, _, _, hend⟩
  · rw [hpop] at hnone
    cases hnone
  · rw [hpop] at hsame
    cases hsame
    rcases hend with ⟨_, heq⟩ | ⟨_, heq⟩
    · rw [heq]
      exact List.prefix_rfl
    · rw [heq, ← Exploration.tests_expand_select g x slot record rest]
      exact tests_isPrefix_run g limit _

/-- A run ends with a selection or is cut off after `limit` of them, in a state that has
every property which selections keep. -/
theorem CostGraph.run_ends [BEq Key] [Hashable Key] [Add Cost] [Ord Cost]
    {g : CostGraph Node Key Cost} {P : Exploration Node Key Cost → Prop}
    (hstep : ∀ x y, P x → x.step g = .expanded y → P y) {x : Exploration Node Key Cost} (hx : P x)
    (limit : Nat) :
    ∃ y, P y ∧ (y.step g = .ended (g.run limit x) ∨
      g.run limit x = ⟨.cutOff, y.tests, y.expansions⟩ ∧
        y.expansions.size = x.expansions.size + limit) := by
  induction limit generalizing x with
  | zero => exact ⟨x, hx, Or.inr ⟨rfl, rfl⟩⟩
  | succ limit ih =>
      cases h : x.step g with
      | ended outcome =>
          refine ⟨x, hx, Or.inl ?_⟩
          simp only [run, h]
      | expanded next =>
          obtain ⟨y, hy, hend⟩ := ih (hstep x next hx h)
          refine ⟨y, hy, ?_⟩
          simp only [run, h]
          have hsize := Exploration.size_expansions_step h
          rw [hsize] at hend
          rcases hend with hended | ⟨hcut, hcount⟩
          · exact Or.inl hended
          · exact Or.inr ⟨hcut, by omega⟩

/-- A search that reaches a goal ends with the selection of this goal, in a state that has
every property which selections keep. -/
theorem CostGraph.exists_selection_of_reached [BEq Key] [Hashable Key] [Add Cost] [Ord Cost]
    [Inhabited Cost] {g : CostGraph Node Key Cost} {start : Node} {limit : Nat}
    {P : Exploration Node Key Cost → Prop} (hstep : ∀ x y, P x → x.step g = .expanded y → P y)
    (hstart : P (Exploration.start g start)) {records : Array (Record Node Cost)} {slot : Nat}
    (h : (g.search limit start).verdict = .reached records slot) :
    ∃ (x : Exploration Node Key Cost) (goal : Record Node Cost) (rest : Queue (Entry Cost)), P x ∧
      x.queue.popAccepted Entry.before (Exploration.current x.records) =
        some ((slot, goal), rest) ∧
      x.records[slot]? = some goal ∧ goal.closed = false ∧ g.isGoal goal.node = true ∧
      g.search limit start = ⟨.reached (x.select slot goal rest).records slot,
        x.tests.push goal.node, x.expansions⟩ := by
  obtain ⟨x, hx, hend⟩ := run_ends hstep hstart limit
  change x.step g = .ended (g.search limit start) ∨ g.search limit start = _ ∧ _ at hend
  rcases hend with hended | ⟨hcut, _⟩
  · rcases Exploration.of_step_eq_ended hended with
      ⟨_, heq⟩ | ⟨i, goal, rest, hpop, hgoal, hopen, hisGoal, heq⟩
    · rw [heq] at h
      cases h
    · obtain rfl : i = slot := by
        rw [heq] at h
        cases h
        rfl
      exact ⟨x, goal, rest, hx, hpop, hgoal, hopen, hisGoal, heq⟩
  · rw [hcut] at h
    cases h

end QueensPuzzle.Search
