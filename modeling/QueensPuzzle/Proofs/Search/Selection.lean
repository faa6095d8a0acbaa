import QueensPuzzle.Proofs.Search.Coverage

/-! # Which record a search selects

The queue gives its elements in the order of their comparison, so a selection takes the entry
that comes before all others which count. The entries which count are those of the open
records: the record that is closed next has the lowest priority of the open ones and, among
equal priorities, the latest stamp. What was dropped in front of it never mattered.
-/

namespace QueensPuzzle.Search

variable {Node Key Cost : Type}

/-! ## Queues in order -/

/-- A comparison that puts any two elements in an order, and never round in a circle. -/
structure Comparison {α : Type} (before : α → α → Bool) : Prop where
  trans : ∀ a b c, before a b = true → before b c = true → before a c = true
  total : ∀ a b, before a b = false → before b a = true

theorem Comparison.refl {α : Type} {before : α → α → Bool} (h : Comparison before) (a : α) :
    before a a = true := by
  cases hself : before a a with
  | true => rfl
  | false => exact hself ▸ h.total a a hself

namespace Queue

variable {α β : Type} {before : α → α → Bool}

/-- The top of the queue, and of each queue inside it, comes before all below it. -/
def Ordered (before : α → α → Bool) : Queue α → Prop
  | .empty => True
  | .node _ top left right =>
      (∀ a ∈ left.toList ++ right.toList, before top a = true) ∧
        left.Ordered before ∧ right.Ordered before

theorem ordered_single (rank : Nat) (a : α) : (node rank a .empty .empty).Ordered before :=
  ⟨by simp [toList], trivial, trivial⟩

theorem Ordered.join {top : α} {a b : Queue α}
    (htop : ∀ other ∈ a.toList ++ b.toList, before top other = true) (ha : a.Ordered before)
    (hb : b.Ordered before) : (join top a b).Ordered before := by
  unfold Queue.join
  split
  · exact ⟨htop, ha, hb⟩
  · refine ⟨?_, hb, ha⟩
    intro other hother
    exact htop other (List.perm_append_comm.mem_iff.mp hother)

theorem Ordered.merge (h : Comparison before) {a b : Queue α} (ha : a.Ordered before)
    (hb : b.Ordered before) : (merge before a b).Ordered before := by
  fun_induction Queue.merge before a b with
  | case1 => exact hb
  | case2 => exact ha
  | case3 i x xl xr j y yl yr hxy ih =>
      obtain ⟨hx, hxl, hxr⟩ := ha
      refine Ordered.join ?_ hxl (ih hxr hb)
      intro other hother
      rw [((toList_merge_perm before xr _).append_left xl.toList).mem_iff] at hother
      simp only [toList, List.mem_append, List.mem_cons] at hother hx
      rcases hother with hleft | hright | rfl | hbelow
      · exact hx other (Or.inl hleft)
      · exact hx other (Or.inr hright)
      · exact hxy
      · exact h.trans x y other hxy (hb.1 other (List.mem_append.mpr hbelow))
  | case4 i x xl xr j y yl yr hxy ih =>
      obtain ⟨hy, hyl, hyr⟩ := hb
      have hyx : before y x = true := h.total x y (eq_false_of_ne_true hxy)
      refine Ordered.join ?_ hyl (ih ha hyr)
      intro other hother
      rw [((toList_merge_perm before _ yr).append_left yl.toList).mem_iff] at hother
      simp only [toList, List.mem_append, List.mem_cons] at hother hy
      rcases hother with hleft | (rfl | hbelow) | hright
      · exact hy other (Or.inl hleft)
      · exact hyx
      · exact h.trans y x other hyx (ha.1 other (List.mem_append.mpr hbelow))
      · exact hy other (Or.inr hright)

theorem Ordered.insert (h : Comparison before) {queue : Queue α} (hqueue : queue.Ordered before)
    (a : α) : (queue.insert before a).Ordered before :=
  Ordered.merge h (ordered_single 1 a) hqueue

/-- The element that is popped comes before all others that are accepted, and the queue behind
it is in order again. -/
theorem Ordered.popAccepted (h : Comparison before) {accept : α → Option β} {queue rest : Queue α}
    {b : β} (hqueue : queue.Ordered before)
    (hpop : queue.popAccepted before accept = some (b, rest)) :
    rest.Ordered before ∧ ∃ a ∈ queue.toList, accept a = some b ∧
      ∀ other ∈ queue.toList, accept other ≠ none → before a other = true := by
  fun_induction Queue.popAccepted before accept queue with
  | case1 => cases hpop
  | case2 rank top left right merged b' haccept =>
      obtain ⟨rfl, rfl⟩ : b' = b ∧ merged = rest := by simpa using hpop
      obtain ⟨htop, hleft, hright⟩ := hqueue
      refine ⟨hleft.merge h hright, top, List.mem_cons_self, haccept, ?_⟩
      intro other hother _
      rcases List.mem_cons.mp hother with rfl | hbelow
      · exact h.refl other
      · exact htop other hbelow
  | case3 rank top left right merged hrefuse ih =>
      obtain ⟨_, hleft, hright⟩ := hqueue
      have hmem (e : α) := (toList_merge_perm before left right).mem_iff (a := e)
      obtain ⟨hrest, a, ha, haccept, hfirst⟩ := ih (hleft.merge h hright) hpop
      refine ⟨hrest, a, List.mem_cons_of_mem top ((hmem a).mp ha), haccept, ?_⟩
      intro other hother hcounts
      rcases List.mem_cons.mp hother with rfl | hbelow
      · exact absurd hrefuse hcounts
      · exact hfirst other ((hmem other).mpr hbelow) hcounts

end Queue

/-! ## Entries -/

section Entries

variable [Ord Cost] [Std.TransOrd Cost]

theorem Entry.comparison_before : Comparison (Entry.before : Entry Cost → Entry Cost → Bool) := by
  let order : Entry Cost → Entry Cost → Ordering :=
    compareLex (compareOn Entry.priority)
      (compareLex (fun a b => compareOn Entry.stamp b a) (compareOn Entry.slot))
  have horder (a b : Entry Cost) : a.before b = (order a b).isLE := rfl
  refine ⟨?_, ?_⟩
  · intro a b c hab hbc
    rw [horder] at hab hbc ⊢
    exact Std.TransCmp.isLE_trans hab hbc
  · intro a b hab
    rw [horder] at hab ⊢
    have hnot : ¬(order a b).isLE = true := by simp [hab]
    exact Ordering.isLE_of_eq_lt (Std.OrientedCmp.lt_of_not_isLE hnot)

omit [Std.TransOrd Cost] in
theorem Entry.before_iff {a b : Entry Cost} :
    a.before b = true ↔ compare a.priority b.priority = .lt ∨
      compare a.priority b.priority = .eq ∧
        (b.stamp < a.stamp ∨ b.stamp = a.stamp ∧ a.slot ≤ b.slot) := by
  unfold Entry.before
  rw [Ordering.isLE_then_iff_or, Ordering.isLE_then_iff_or, Nat.compare_eq_lt, Nat.compare_eq_eq,
    Nat.isLE_compare]

end Entries

/-! ## Selections -/

namespace Exploration

variable [BEq Key] [Hashable Key] {g : CostGraph Node Key Cost} {start : Node}

/-- Every open record has its entry in the queue, and the queue is in order. -/
structure Scheduled [Ord Cost] (g : CostGraph Node Key Cost) (start : Node)
    (x : Exploration Node Key Cost) : Prop where
  live : Live g start x
  ordered : x.queue.Ordered Entry.before

section Steps

variable [Ord Cost] [Std.TransOrd Cost]

theorem scheduled_start [LawfulBEq Key] [Inhabited Cost] (g : CostGraph Node Key Cost)
    (start : Node) : Scheduled g start (Exploration.start g start) := by
  have hempty : (Queue.empty : Queue (Entry Cost)).Ordered Entry.before := trivial
  exact ⟨(covering_start g start).live, hempty.insert Entry.comparison_before _⟩

theorem Scheduled.select {x : Exploration Node Key Cost} (hx : Scheduled g start x) {slot : Nat}
    {record : Record Node Cost} {rest : Queue (Entry Cost)}
    (hpop : x.queue.popAccepted Entry.before (current x.records) = some ((slot, record), rest))
    (hrecord : x.records[slot]? = some record) : Scheduled g start (x.select slot record rest) :=
  ⟨hx.live.select hpop hrecord, (hx.ordered.popAccepted Entry.comparison_before hpop).1⟩

theorem ordered_discover [LawfulBEq Key] [Add Cost] {source : Nat} {origin : Record Node Cost}
    {x : Exploration Node Key Cost} (hx : x.queue.Ordered Entry.before) (node : Node) :
    (discover g source origin x node).queue.Ordered Entry.before := by
  rcases discover_cases g source origin x node with
    ⟨_, heq⟩ | ⟨_, _, _, _, _, _, heq⟩ | ⟨_, _, _, heq⟩
  · rw [heq]
    exact hx.insert Entry.comparison_before _
  · rw [heq]
    exact hx.insert Entry.comparison_before _
  · rw [heq]
    exact hx

theorem ordered_foldl_discover [LawfulBEq Key] [Add Cost] {source : Nat}
    {origin : Record Node Cost} {x : Exploration Node Key Cost}
    (hx : x.queue.Ordered Entry.before) (nodes : List Node) :
    (nodes.foldl (discover g source origin) x).queue.Ordered Entry.before := by
  induction nodes generalizing x with
  | nil => exact hx
  | cons node nodes ih => exact ih (ordered_discover hx node)

theorem Scheduled.step [LawfulBEq Key] [Add Cost] {x y : Exploration Node Key Cost}
    (hx : Scheduled g start x) (h : x.step g = .expanded y) : Scheduled g start y := by
  obtain ⟨slot, record, rest, hpop, hrecord, _, _, rfl⟩ := of_step_eq_expanded h
  have hselect := hx.select hpop hrecord
  have hreach : g.Reachable start record.close.node := hx.live.reachable slot record hrecord
  exact ⟨hselect.live.expand hreach, ordered_foldl_discover hselect.ordered _⟩

end Steps

/-- An entry that counts stands for its record as the record's own entry does. -/
theorem before_of_current [Ord Cost] [Std.ReflOrd Cost] {records : Array (Record Node Cost)}
    {entry : Entry Cost} {slot : Nat} {record : Record Node Cost}
    (h : current records entry = some (slot, record)) :
    (record.entry slot).before entry = true := by
  rw [Entry.before_iff]
  right
  unfold current at h
  split at h
  · split at h
    · rename_i haccept
      simp only [Option.some.injEq, Prod.mk.injEq] at h
      obtain ⟨rfl, rfl⟩ := h
      simp only [Bool.and_eq_true, beq_iff_eq] at haccept
      exact ⟨haccept.2, Or.inr ⟨haccept.1.2.symm, Nat.le_refl _⟩⟩
    · cases h
  · cases h

/-- The record that a selection takes comes before all open ones. -/
theorem Scheduled.before_of_open [Ord Cost] [Std.TransOrd Cost] {x : Exploration Node Key Cost}
    (hx : Scheduled g start x) {slot : Nat} {record : Record Node Cost}
    {rest : Queue (Entry Cost)}
    (hpop : x.queue.popAccepted Entry.before (current x.records) = some ((slot, record), rest))
    {i : Nat} {other : Record Node Cost} (hother : x.records[i]? = some other)
    (hopen : other.closed = false) : (record.entry slot).before (other.entry i) = true := by
  obtain ⟨_, entry, _, haccept, hfirst⟩ := hx.ordered.popAccepted Entry.comparison_before hpop
  have hcounts : current x.records (other.entry i) ≠ none := by
    rw [current_entry hother hopen]
    exact Option.some_ne_none _
  exact Entry.comparison_before.trans _ entry _ (before_of_current haccept)
    (hfirst _ (hx.live.queued i other hother hopen) hcounts)

/-- Of the open records with its priority, the one that a selection takes is the latest. -/
theorem Scheduled.stamp_le_of_open [Ord Cost] [Std.TransOrd Cost] {x : Exploration Node Key Cost}
    (hx : Scheduled g start x) {slot : Nat} {record : Record Node Cost}
    {rest : Queue (Entry Cost)}
    (hpop : x.queue.popAccepted Entry.before (current x.records) = some ((slot, record), rest))
    {i : Nat} {other : Record Node Cost} (hother : x.records[i]? = some other)
    (hopen : other.closed = false) (hpriority : record.priority = other.priority) :
    other.stamp ≤ record.stamp := by
  rcases Entry.before_iff.mp (hx.before_of_open hpop hother hopen) with hlower | ⟨_, hstamps⟩
  · change compare record.priority other.priority = .lt at hlower
    have hequal : compare other.priority other.priority = .eq := Std.ReflCmp.compare_self
    rw [hpriority, hequal] at hlower
    cases hlower
  · change other.stamp < record.stamp ∨ other.stamp = record.stamp ∧ _ at hstamps
    omega

end Exploration

end QueensPuzzle.Search
