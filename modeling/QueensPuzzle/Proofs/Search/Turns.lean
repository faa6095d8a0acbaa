import QueensPuzzle.Proofs.Search.Coverage

/-! # A search entry by entry

A turn of the search takes one entry off the queue. It drops the entry if it is outdated; else it
closes the record of the entry. A selection is so many turns: those that drop outdated entries and
one that closes a record. Every discovery queues one entry, so the turns are no more than the
discoveries. From turn to turn closed records stay as they are, and an open record is replaced by
one with a lower priority only, however far the priorities fall. So the search comes to an end if
there are finitely many keys in reach, whatever the costs.
-/

namespace QueensPuzzle.Search

variable {Node Key Cost : Type}

namespace Queue

variable {α β : Type} {before : α → α → Bool}

/-- The first element in order, with the queue behind it. -/
def pop (before : α → α → Bool) : Queue α → Option (α × Queue α)
  | .empty => none
  | .node _ top left right => some (top, merge before left right)

theorem size_insert (before : α → α → Bool) (a : α) (queue : Queue α) :
    (queue.insert before a).size = queue.size + 1 := by
  rw [insert, size_merge]
  simp only [size]
  omega

theorem size_of_pop {queue rest : Queue α} {a : α} (h : queue.pop before = some (a, rest)) :
    queue.size = rest.size + 1 := by
  cases queue with
  | empty => cases h
  | node rank top left right =>
      cases h
      simp [size, size_merge]

theorem popAccepted_of_pop {queue rest : Queue α} {a : α} (h : queue.pop before = some (a, rest))
    (accept : α → Option β) :
    queue.popAccepted before accept =
      match accept a with
      | some b => some (b, rest)
      | none => rest.popAccepted before accept := by
  cases queue with
  | empty => cases h
  | node rank top left right =>
      cases h
      cases haccept : accept a <;> simp [popAccepted, haccept]

theorem popAccepted_of_pop_eq_none {queue : Queue α} (h : queue.pop before = none)
    (accept : α → Option β) : queue.popAccepted before accept = none := by
  cases queue with
  | empty => rw [popAccepted]
  | node rank top left right => cases h

end Queue

/-- What may become of a record in its slot: a closed one stays as it is, an open one is closed, or
it is replaced by a later discovery with a lower priority. -/
def Record.Becomes [Ord Cost] (record later : Record Node Cost) : Prop :=
  later = record ∨ record.closed = false ∧
    (later = record.close ∨
      record.stamp < later.stamp ∧ compare later.priority record.priority = .lt)

theorem Record.Becomes.trans [Ord Cost] [Std.TransOrd Cost] {a b c : Record Node Cost}
    (hab : a.Becomes b) (hbc : b.Becomes c) : a.Becomes c := by
  rcases hab with rfl | ⟨hopen, rfl | ⟨hstamp, hlower⟩⟩
  · exact hbc
  · rcases hbc with rfl | ⟨hstill, _⟩
    · exact .inr ⟨hopen, .inl rfl⟩
    · cases hstill
  · rcases hbc with rfl | ⟨_, rfl | ⟨hlater, hfurther⟩⟩
    · exact .inr ⟨hopen, .inr ⟨hstamp, hlower⟩⟩
    · exact .inr ⟨hopen, .inr ⟨hstamp, hlower⟩⟩
    · exact .inr ⟨hopen, .inr ⟨Nat.lt_trans hstamp hlater, Std.TransCmp.lt_trans hfurther hlower⟩⟩

/-- No record is lost, and each becomes what it may. -/
def Carries [Ord Cost] (records later : Array (Record Node Cost)) : Prop :=
  ∀ (slot : Nat) (record : Record Node Cost), records[slot]? = some record →
    ∃ next, later[slot]? = some next ∧ record.Becomes next

theorem Carries.refl [Ord Cost] (records : Array (Record Node Cost)) : Carries records records :=
  fun _ record hrecord => ⟨record, hrecord, .inl rfl⟩

theorem Carries.trans [Ord Cost] [Std.TransOrd Cost] {a b c : Array (Record Node Cost)}
    (hab : Carries a b) (hbc : Carries b c) : Carries a c := by
  intro slot record hrecord
  obtain ⟨next, hnext, hbecomes⟩ := hab slot record hrecord
  obtain ⟨last, hlast, hfurther⟩ := hbc slot next hnext
  exact ⟨last, hlast, hbecomes.trans hfurther⟩

namespace Exploration

variable [BEq Key] [Hashable Key]

/-! ## Records -/

section Records

variable [Add Cost] [Ord Cost] {g : CostGraph Node Key Cost} {start : Node} {source : Nat}
  {origin : Record Node Cost}

/-- A discovery leaves a record alone, or replaces it if it is open and the priority falls. -/
theorem lower_of_discover [Std.OrientedOrd Cost] (g : CostGraph Node Key Cost) (source : Nat)
    (origin : Record Node Cost) (x : Exploration Node Key Cost) (node : Node) {slot : Nat}
    {record : Record Node Cost} (hrecord : x.records[slot]? = some record) :
    ∃ next, (discover g source origin x node).records[slot]? = some next ∧
      (next = record ∨ record.closed = false ∧ next.stamp = x.stamp + 1 ∧
        compare next.priority record.priority = .lt) := by
  rcases discover_cases g source origin x node with
    ⟨_, heq⟩ | ⟨i, known, _, hknown, hopen, hhigher, heq⟩ | ⟨_, _, _, heq⟩
  · refine ⟨record, ?_, .inl rfl⟩
    rw [heq]
    exact getElem?_push_of_some _ hrecord
  · rw [heq]
    by_cases hi : slot = i
    · subst hi
      rw [hrecord] at hknown
      cases hknown
      refine ⟨offer g source origin x.stamp node, by simp [getElem?_replace hrecord], ?_⟩
      exact .inr ⟨hopen, rfl, Std.OrientedCmp.lt_of_not_isLE (ne_true_of_eq_false hhigher)⟩
    · exact ⟨record, by simp [getElem?_replace hknown, hi, hrecord], .inl rfl⟩
  · rw [heq]
    exact ⟨record, hrecord, .inl rfl⟩

variable [LawfulBEq Key] [Inhabited Cost] [Std.TransOrd Cost] {x y : Exploration Node Key Cost}

omit [LawfulBEq Key] in
theorem Sound.carries_discover (hx : Sound g start x) (node : Node) :
    Carries x.records (Exploration.discover g source origin x node).records := by
  intro slot record hrecord
  obtain ⟨next, hnext, hsame | ⟨hopen, hstamp, hlower⟩⟩ :=
    lower_of_discover g source origin x node hrecord
  · exact ⟨next, hnext, .inl hsame⟩
  · have hle := hx.stamp_le slot record hrecord
    exact ⟨next, hnext, .inr ⟨hopen, .inr ⟨by omega, hlower⟩⟩⟩

theorem Sound.carries_foldl_discover (hx : Sound g start x)
    (horigin : x.records[source]? = some origin) (hclosed : origin.closed = true)
    (hgoal : g.isGoal origin.node = false) {nodes : List Node}
    (hnodes : ∀ node ∈ nodes, node ∈ g.neighbors origin.node) :
    Carries x.records (nodes.foldl (Exploration.discover g source origin) x).records := by
  induction nodes generalizing x with
  | nil => exact .refl _
  | cons node nodes ih =>
      rw [List.forall_mem_cons] at hnodes
      have hext : Extends x (Exploration.discover g source origin x node) :=
        extends_discover x node
      exact (hx.carries_discover node).trans (ih (hx.discover horigin hclosed hgoal hnodes.1)
        ((hext.closed_iff source origin hclosed).mpr horigin) hnodes.2)

omit [BEq Key] [Hashable Key] [Add Cost] [LawfulBEq Key] [Inhabited Cost] [Std.TransOrd Cost] in
theorem carries_close {records : Array (Record Node Cost)} {slot : Nat} {record : Record Node Cost}
    (hrecord : records[slot]? = some record) (hopen : record.closed = false) :
    Carries records (records.setIfInBounds slot record.close) := by
  intro i other hother
  rw [getElem?_replace hrecord]
  by_cases hi : i = slot
  · subst hi
    rw [hrecord] at hother
    cases hother
    exact ⟨record.close, by simp, .inr ⟨hopen, .inl rfl⟩⟩
  · exact ⟨other, by simp [hi, hother], .inl rfl⟩

theorem Sound.carries_step (hx : Sound g start x) (h : x.step g = .expanded y) :
    Carries x.records y.records := by
  obtain ⟨slot, record, rest, _, hrecord, hopen, hgoal, rfl⟩ := of_step_eq_expanded h
  have hclosed : (x.select slot record rest).records[slot]? = some record.close := by
    simp [Exploration.select, getElem?_replace hrecord]
  exact (carries_close hrecord hopen).trans
    ((hx.select hrecord hopen rest).carries_foldl_discover hclosed rfl hgoal fun _ h => h)

end Records

/-! ## Turns -/

section Turns

variable [Add Cost] [Ord Cost] {g : CostGraph Node Key Cost} {x y : Exploration Node Key Cost}

/-- Takes the first entry off the queue. An outdated entry is dropped. The record of any other is
closed, and expanded if it is no goal. -/
def turn (g : CostGraph Node Key Cost) (x : Exploration Node Key Cost) : Step Node Key Cost :=
  match x.queue.pop Entry.before with
  | none => .ended ⟨.exhausted, x.tests, x.expansions⟩
  | some (entry, rest) =>
      match current x.records entry with
      | none => .expanded { x with queue := rest }
      | some (slot, record) =>
          let y := x.select slot record rest
          if g.isGoal record.node then .ended ⟨.reached y.records slot, y.tests, y.expansions⟩
          else .expanded (y.expand g slot record.close)

/-- A turn drops an outdated entry, which makes no difference for the selection to come, or is
this selection. -/
theorem turn_cases (g : CostGraph Node Key Cost) (x : Exploration Node Key Cost) :
    (∃ entry rest, x.queue.pop Entry.before = some (entry, rest) ∧
      x.turn g = .expanded { x with queue := rest } ∧
      x.step g = ({ x with queue := rest } : Exploration Node Key Cost).step g) ∨
    x.turn g = x.step g ∧ ∀ popped rest,
      x.queue.popAccepted Entry.before (current x.records) = some (popped, rest) →
      x.queue.size = rest.size + 1 := by
  unfold turn
  cases hpop : x.queue.pop Entry.before with
  | none =>
      right
      have hnone := Queue.popAccepted_of_pop_eq_none hpop (current x.records)
      simp [step, hnone]
  | some top =>
      obtain ⟨entry, rest⟩ := top
      have haccepted := Queue.popAccepted_of_pop hpop (current x.records)
      cases hcurrent : current x.records entry with
      | none =>
          left
          rw [hcurrent] at haccepted
          exact ⟨entry, rest, rfl, by simp [hcurrent], by simp [step, haccepted]⟩
      | some popped =>
          right
          obtain ⟨slot, record⟩ := popped
          rw [hcurrent] at haccepted
          refine ⟨?_, ?_⟩
          · simp only [hcurrent]
            cases hgoal : g.isGoal record.node <;>
              simp [step, haccepted, hgoal, select, Record.close]
          · intro popped behind hbehind
            rw [haccepted] at hbehind
            cases hbehind
            exact Queue.size_of_pop hpop

/-- The search after so many turns, or the outcome that it came to before. -/
def turns (g : CostGraph Node Key Cost) : Nat → Exploration Node Key Cost → Step Node Key Cost
  | 0, x => .expanded x
  | count + 1, x =>
      match x.turn g with
      | .ended outcome => .ended outcome
      | .expanded next => turns g count next

theorem turns_succ_eq_expanded_iff {count : Nat} :
    turns g (count + 1) x = .expanded y ↔
      ∃ next, x.turn g = .expanded next ∧ turns g count next = .expanded y := by
  rw [turns]
  cases x.turn g <;> simp

theorem turns_add {count : Nat} (h : turns g count x = .expanded y) (more : Nat) :
    turns g (count + more) x = turns g more y := by
  induction count generalizing x with
  | zero =>
      cases h
      rw [Nat.zero_add]
  | succ count ih =>
      obtain ⟨next, hturn, hrest⟩ := turns_succ_eq_expanded_iff.mp h
      rw [Nat.add_right_comm, turns, hturn]
      exact ih hrest

/-- What every turn keeps is kept by any number of them. -/
theorem of_turns {P : Exploration Node Key Cost → Prop}
    (hturn : ∀ x y, P x → x.turn g = .expanded y → P y) {count : Nat} (hx : P x)
    (h : turns g count x = .expanded y) : P y := by
  induction count generalizing x with
  | zero =>
      cases h
      exact hx
  | succ count ih =>
      obtain ⟨next, hnext, hrest⟩ := turns_succ_eq_expanded_iff.mp h
      exact ih (hturn x next hx hnext) hrest

theorem ended_unique {count other : Nat} {a b : Outcome Node Cost}
    (ha : turns g count x = .ended a) (hb : turns g other x = .ended b) : a = b := by
  induction count generalizing other x with
  | zero => cases ha
  | succ count ih =>
      cases other with
      | zero => cases hb
      | succ other =>
          rw [turns] at ha hb
          cases hturn : x.turn g with
          | ended outcome =>
              rw [hturn] at ha hb
              cases ha
              cases hb
              rfl
          | expanded next => exact ih (by simpa [hturn] using ha) (by simpa [hturn] using hb)

/-- Dropping the outdated entries one by one comes to the selection. -/
theorem exists_turns_eq_step (g : CostGraph Node Key Cost) (x : Exploration Node Key Cost) :
    ∃ count, turns g count x = x.step g := by
  induction hsize : x.queue.size using Nat.strongRecOn generalizing x with
  | ind size ih =>
      rcases turn_cases g x with ⟨entry, rest, hpop, hturn, hstep⟩ | ⟨hturn, _⟩
      · have hless := Queue.size_of_pop hpop
        obtain ⟨count, hcount⟩ := ih rest.size (by omega) { x with queue := rest } rfl
        refine ⟨count + 1, ?_⟩
        rw [turns, hturn, hstep]
        exact hcount
      · refine ⟨1, ?_⟩
        rw [turns, hturn]
        cases x.step g <;> rfl

theorem exists_turns_eq_run {limit : Nat} (h : (g.run limit x).verdict ≠ .cutOff) :
    ∃ count, turns g count x = .ended (g.run limit x) := by
  induction limit generalizing x with
  | zero => simp [CostGraph.run] at h
  | succ limit ih =>
      obtain ⟨count, hcount⟩ := exists_turns_eq_step g x
      rw [CostGraph.run] at h ⊢
      cases hstep : x.step g with
      | ended outcome => exact ⟨count, hcount.trans hstep⟩
      | expanded next =>
          rw [hstep] at h hcount
          obtain ⟨more, hmore⟩ := ih h
          exact ⟨count + more, (turns_add hcount more).trans hmore⟩

/-! ### Entries -/

theorem size_queue_discover (g : CostGraph Node Key Cost) (source : Nat)
    (origin : Record Node Cost) (x : Exploration Node Key Cost) (node : Node) :
    (discover g source origin x node).queue.size + x.stamp =
      x.queue.size + (discover g source origin x node).stamp := by
  rcases discover_cases g source origin x node with
    ⟨_, heq⟩ | ⟨_, _, _, _, _, _, heq⟩ | ⟨_, _, _, heq⟩
  · simp only [heq, Queue.size_insert]
    omega
  · simp only [heq, Queue.size_insert]
    omega
  · rw [heq]

theorem size_queue_foldl_discover (g : CostGraph Node Key Cost) (source : Nat)
    (origin : Record Node Cost) (x : Exploration Node Key Cost) (nodes : List Node) :
    (nodes.foldl (discover g source origin) x).queue.size + x.stamp =
      x.queue.size + (nodes.foldl (discover g source origin) x).stamp := by
  induction nodes generalizing x with
  | nil => rfl
  | cons node nodes ih =>
      have hfirst := size_queue_discover g source origin x node
      have hrest := ih (discover g source origin x node)
      rw [List.foldl_cons]
      omega

/-- A turn takes one entry off, and every discovery of it adds one. -/
theorem size_queue_turn (h : x.turn g = .expanded y) :
    y.queue.size + 1 + x.stamp = x.queue.size + y.stamp := by
  rcases turn_cases g x with ⟨entry, rest, hpop, hturn, _⟩ | ⟨hturn, hless⟩
  · rw [hturn] at h
    cases h
    rw [Queue.size_of_pop hpop]
  · rw [hturn] at h
    obtain ⟨slot, record, rest, hpop, _, _, _, rfl⟩ := of_step_eq_expanded h
    have hsize := hless _ rest hpop
    have hfold : ((x.select slot record rest).expand g slot record.close).queue.size + x.stamp =
        rest.size + ((x.select slot record rest).expand g slot record.close).stamp :=
      size_queue_foldl_discover g slot record.close (x.select slot record rest) _
    omega

theorem size_queue_turns {count : Nat} (h : turns g count x = .expanded y) :
    y.queue.size + count + x.stamp = x.queue.size + y.stamp := by
  induction count generalizing x with
  | zero =>
      cases h
      rfl
  | succ count ih =>
      obtain ⟨next, hturn, hnext⟩ := turns_succ_eq_expanded_iff.mp h
      have hfirst := size_queue_turn hturn
      have hrest := ih hnext
      omega

end Turns

/-! ### Records from turn to turn -/

section Keeping

variable [LawfulBEq Key] [Add Cost] [Ord Cost] [Inhabited Cost] {g : CostGraph Node Key Cost}
  {start : Node} {x y : Exploration Node Key Cost}

theorem Sound.turn (hx : Sound g start x) (h : x.turn g = .expanded y) : Sound g start y := by
  rcases turn_cases g x with ⟨entry, rest, _, hturn, _⟩ | ⟨hturn, _⟩
  · rw [hturn] at h
    cases h
    exact ⟨hx.indexed, hx.rooted, hx.stamp_le⟩
  · exact hx.step (hturn.symm.trans h)

variable [Std.TransOrd Cost]

theorem Sound.carries_turn (hx : Sound g start x) (h : x.turn g = .expanded y) :
    Carries x.records y.records := by
  rcases turn_cases g x with ⟨entry, rest, _, hturn, _⟩ | ⟨hturn, _⟩
  · rw [hturn] at h
    cases h
    exact .refl _
  · exact hx.carries_step (hturn.symm.trans h)

theorem Sound.carries_turns (hx : Sound g start x) {count : Nat}
    (h : turns g count x = .expanded y) : Carries x.records y.records := by
  have hkeeps : ∀ a b : Exploration Node Key Cost, Sound g start a ∧ Carries x.records a.records →
      a.turn g = .expanded b → Sound g start b ∧ Carries x.records b.records := by
    rintro a b ⟨ha, hcarries⟩ hturn
    exact ⟨ha.turn hturn, hcarries.trans (ha.carries_turn hturn)⟩
  exact (of_turns hkeeps ⟨hx, .refl _⟩ h).2

omit [LawfulBEq Key] [Inhabited Cost] [Std.TransOrd Cost] in
/-- The turn that ends a search drops nothing, it is a selection. -/
theorem exists_step_of_turns_eq_ended {outcome : Outcome Node Cost} {count : Nat}
    (h : turns g count x = .ended outcome) :
    ∃ before y, turns g before x = .expanded y ∧ y.step g = .ended outcome := by
  induction count generalizing x with
  | zero => cases h
  | succ count ih =>
      rw [turns] at h
      cases hturn : x.turn g with
      | ended other =>
          obtain rfl : other = outcome := by simpa [hturn] using h
          refine ⟨0, x, rfl, ?_⟩
          rcases turn_cases g x with ⟨_, _, _, hdrop, _⟩ | ⟨hstep, _⟩
          · rw [hdrop] at hturn
            cases hturn
          · exact hstep.symm.trans hturn
      | expanded next =>
          obtain ⟨before, y, hbefore, hend⟩ := ih (by simpa [hturn] using h)
          refine ⟨before + 1, y, ?_, hend⟩
          rw [turns, hturn]
          exact hbefore

/-- The record of the goal is closed, all others are as they came through the turns. -/
theorem Sound.carries_reached (hx : Sound g start x) {count slot : Nat}
    {outcome : Outcome Node Cost} {records : Array (Record Node Cost)}
    (h : turns g count x = .ended outcome) (hverdict : outcome.verdict = .reached records slot) :
    Carries x.records records := by
  obtain ⟨before, y, hbefore, hend⟩ := exists_step_of_turns_eq_ended h
  rcases of_step_eq_ended hend with ⟨_, rfl⟩ | ⟨i, goal, rest, _, hgoal, hopen, _, rfl⟩
  · cases hverdict
  · cases hverdict
    exact (hx.carries_turns hbefore).trans (carries_close hgoal hopen)

end Keeping

end Exploration

/-- The slots of the records that were closed, in order. -/
def Outcome.closings (outcome : Outcome Node Cost) : List Nat :=
  outcome.expansions.toList.map (·.slot) ++
    match outcome.verdict with
    | .reached _ slot => [slot]
    | _ => []

namespace CostGraph

variable [BEq Key] [LawfulBEq Key] [Hashable Key] [Add Cost] [Ord Cost] [Inhabited Cost]

/-- What a search notes up to its end, however it ends: it closes no record twice, and tests
and expands no more nodes than there are keys in reach. -/
theorem search_notes [Std.ReflOrd Cost] {g : CostGraph Node Key Cost} {start : Node}
    (hfinite : (g.reachableKeys start).Finite) (limit : Nat) :
    let outcome := g.search limit start
    outcome.closings.Nodup ∧ outcome.tested.length ≤ (g.reachableKeys start).ncard ∧
      outcome.expanded.length ≤ (g.reachableKeys start).ncard := by
  intro outcome
  obtain ⟨x, hx, hend⟩ :=
    run_ends (fun _ _ hx hstep => hx.step hstep) (Exploration.covering_start g start) limit
  change x.step g = .ended outcome ∨ outcome = _ ∧ _ at hend
  have hexpanded : (x.expansions.toList.map (·.node)).length ≤ (g.reachableKeys start).ncard := by
    simpa using hx.size_le hfinite
  have htested : x.tests.toList.length ≤ (g.reachableKeys start).ncard := by
    rw [hx.logged.tests_eq]
    exact hexpanded
  have hslots := hx.logged.slots_nodup
  rcases hend with hended | ⟨heq, _⟩
  · rcases Exploration.of_step_eq_ended hended with
      ⟨_, heq⟩ | ⟨slot, record, rest, _, hrecord, hopen, _, heq⟩
    · rw [heq]
      exact ⟨by simpa [Outcome.closings] using hslots, htested, hexpanded⟩
    · rw [heq]
      refine ⟨?_, ?_, hexpanded⟩
      · simp only [Outcome.closings, List.nodup_append]
        refine ⟨hslots, by simp, ?_⟩
        intro i hi j hj hsame
        obtain rfl : j = slot := by simpa using hj
        obtain ⟨expansion, hmem, rfl⟩ := List.mem_map.mp hi
        exact hx.logged.slot_ne_of_open hrecord hopen hmem hsame
      · apply length_le_ncard hfinite (hx.logged.keys_nodup_push hx.live.indexed hrecord hopen)
        intro node hnode
        rw [Array.toList_push, List.mem_append, List.mem_singleton] at hnode
        rcases hnode with hbefore | rfl
        · exact (hx.reachable_of_mem hbefore).1
        · exact hx.live.reachable slot record hrecord
  · rw [heq]
    exact ⟨by simpa [Outcome.closings] using hslots, htested, hexpanded⟩

variable [Std.TransOrd Cost]

/-- With finitely many keys in reach a search comes to an end after so many entries of the
queue, whatever the costs and estimates. It closes no record twice, and tests and expands no
more nodes than there are keys in reach. At any time the entries taken off and those still in the
queue are as many as the discoveries, the start among them. A rediscovery lowers the priority of
an open record, and closed records stay as they are to the end. -/
theorem search_halts (g : CostGraph Node Key Cost) (start : Node)
    (hfinite : (g.reachableKeys start).Finite) :
    ∃ pops outcome, Exploration.turns g pops (Exploration.start g start) = .ended outcome ∧
      (∀ limit, (g.reachableKeys start).ncard < limit → g.search limit start = outcome) ∧
      outcome.closings.Nodup ∧ outcome.tested.length ≤ (g.reachableKeys start).ncard ∧
      outcome.expanded.length ≤ (g.reachableKeys start).ncard ∧
      (∀ count x, Exploration.turns g count (Exploration.start g start) = .expanded x →
        x.queue.size + count = x.stamp + 1 ∧
        (∀ more y, Exploration.turns g more x = .expanded y → Carries x.records y.records) ∧
        ∀ more last records slot, Exploration.turns g more x = .ended last →
          last.verdict = .reached records slot → Carries x.records records) ∧
      ∀ (x : Exploration Node Key Cost) (source : Nat) (origin : Record Node Cost) (node : Node)
        (slot : Nat) (record : Record Node Cost), x.records[slot]? = some record →
        ∃ next, (x.discover g source origin node).records[slot]? = some next ∧
          (next = record ∨ record.closed = false ∧ next.stamp = x.stamp + 1 ∧
            compare next.priority record.priority = .lt) := by
  have hends : ∀ limit, (g.reachableKeys start).ncard < limit →
      ∃ pops, Exploration.turns g pops (Exploration.start g start) =
        .ended (g.search limit start) :=
    fun limit hlimit => Exploration.exists_turns_eq_run (verdict_ne_cutOff hfinite hlimit)
  obtain ⟨pops, hpops⟩ := hends _ (Nat.lt_succ_self _)
  obtain ⟨hclosings, htested, hexpanded⟩ := search_notes hfinite _
  refine ⟨pops, _, hpops, ?_, hclosings, htested, hexpanded, ?_, ?_⟩
  · intro limit hlimit
    obtain ⟨others, hothers⟩ := hends limit hlimit
    exact Exploration.ended_unique hothers hpops
  · intro count x hx
    have hsound : x.Sound g start :=
      Exploration.of_turns (fun _ _ hy hturn => hy.turn hturn) (Exploration.sound_start g start) hx
    have hsize := Exploration.size_queue_turns hx
    have hfirst : (Exploration.start g start).queue.size = 1 := Queue.size_insert _ _ _
    have hzero : (Exploration.start g start).stamp = 0 := rfl
    refine ⟨by omega, ?_, ?_⟩
    · intro more y hy
      exact hsound.carries_turns hy
    · intro more last records slot hlast hverdict
      exact hsound.carries_reached hlast hverdict
  · intro x source origin node slot record hrecord
    exact Exploration.lower_of_discover g source origin x node hrecord

end CostGraph

/-- Endlessly many nodes round three places, and every round is cheaper than the one before. -/
def whirl : CostGraph Nat Nat where
  key n := n % 3
  isGoal _ := false
  distance a b := (a : Int) - b
  estimate _ := 0
  neighbors n := [n + 1, n + 2, n + 4]

theorem whirl_halts : ∃ pops outcome,
    Exploration.turns whirl pops (Exploration.start whirl 0) = .ended outcome ∧
      outcome.closings.Nodup ∧ outcome.tested.length ≤ 3 ∧ outcome.expanded.length ≤ 3 := by
  have hsub : whirl.reachableKeys 0 ⊆ ↑(Finset.range 3) := by
    rintro key ⟨node, _, rfl⟩
    exact Finset.mem_coe.mpr (Finset.mem_range.mpr (Nat.mod_lt node (by decide)))
  have hfinite : (whirl.reachableKeys 0).Finite := (Finset.range 3).finite_toSet.subset hsub
  have hcard : (whirl.reachableKeys 0).ncard ≤ 3 := by
    have hle := Set.ncard_le_ncard hsub (Finset.range 3).finite_toSet
    rwa [Set.ncard_coe_finset, Finset.card_range] at hle
  obtain ⟨pops, outcome, hend, _, hclosings, htested, hexpanded, _⟩ :=
    CostGraph.search_halts whirl 0 hfinite
  exact ⟨pops, outcome, hend, hclosings, htested.trans hcard, hexpanded.trans hcard⟩

end QueensPuzzle.Search
