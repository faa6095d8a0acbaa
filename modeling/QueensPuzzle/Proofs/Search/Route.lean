import Mathlib.Data.List.Chain
import Mathlib.Data.List.Perm.Subperm
import QueensPuzzle.Proofs.Search.Discovery

/-! # The route to a goal

A record points back to a closed record that is older than itself, and closed records never
change. So following a route back from any record comes to the start, over records whose
stamps decrease, and the nodes read off on the way form a walk through the graph. None of
this depends on the costs or on the order of the queue, nor on keys that tell nodes apart.
-/

namespace QueensPuzzle.Search

variable {Node Key Cost : Type}

/-- A cost with the distances along some nodes added to it, one after the other. -/
def CostGraph.costAlong [Add Cost] (g : CostGraph Node Key Cost) : Cost → List Node → Cost
  | cost, a :: b :: rest => g.costAlong (cost + g.distance a b) (b :: rest)
  | cost, [_] => cost
  | cost, [] => cost

theorem CostGraph.costAlong_concat [Add Cost] (g : CostGraph Node Key Cost) (cost : Cost)
    (nodes : List Node) {last : Node} (hlast : nodes.getLast? = some last) (node : Node) :
    g.costAlong cost (nodes ++ [node]) = g.costAlong cost nodes + g.distance last node := by
  fun_induction CostGraph.costAlong g cost nodes with
  | case1 cost a b rest ih =>
      simp only [List.cons_append, CostGraph.costAlong]
      rw [← List.cons_append]
      exact ih (by simpa using hlast)
  | case2 cost only =>
      cases hlast
      rfl
  | case3 => cases hlast

/-- A walk from the start to the node of `record`, at the cost of `record`, that meets no
goal before its end and no key twice. -/
structure IsRoute [Add Cost] [Inhabited Cost] (g : CostGraph Node Key Cost) (start : Node)
    (record : Record Node Cost) (path : List Node) : Prop where
  head_eq : path.head? = some start
  last_eq : path.getLast? = some record.node
  linked : path.IsChain fun a b => b ∈ g.neighbors a
  not_goal : ∀ node ∈ path.dropLast, g.isGoal node = false
  keys_nodup : (path.map g.key).Nodup
  cost_eq : record.cost = g.costAlong default path

/-- `child` was discovered when the closed record `parent` was expanded. -/
structure Follows [Add Cost] (g : CostGraph Node Key Cost) (parent child : Record Node Cost) :
    Prop where
  closed : parent.closed = true
  older : parent.stamp < child.stamp
  not_goal : g.isGoal parent.node = false
  neighbor : child.node ∈ g.neighbors parent.node
  cost_eq : child.cost = parent.cost + g.distance parent.node child.node

/-- Nodes of some records that all have different keys are no more than the records. -/
theorem length_le_of_keys_nodup (g : CostGraph Node Key Cost) {records : Array (Record Node Cost)}
    {path : List Node} (hnodup : (path.map g.key).Nodup)
    (hrecords : ∀ node ∈ path, ∃ record ∈ records, record.node = node) :
    path.length ≤ records.size := by
  have hsub : path.map g.key ⊆ records.toList.map fun record => g.key record.node := by
    intro key hkey
    obtain ⟨node, hnode, rfl⟩ := List.mem_map.mp hkey
    obtain ⟨record, hrecord, rfl⟩ := hrecords node hnode
    exact List.mem_map_of_mem (Array.mem_toList_iff.mpr hrecord)
  have hle := (List.subperm_of_subset hnodup hsub).length_le
  simpa using hle

section Records

variable [Add Cost] [Inhabited Cost] {g : CostGraph Node Key Cost} {start : Node}

/-- A record without a predecessor is the start; any other follows its predecessor. -/
def Rooted (g : CostGraph Node Key Cost) (start : Node) (records : Array (Record Node Cost))
    (record : Record Node Cost) : Prop :=
  match record.previous with
  | none => record.node = start ∧ record.cost = default
  | some slot => ∃ parent, records[slot]? = some parent ∧ Follows g parent record

theorem Rooted.close {records : Array (Record Node Cost)} {record : Record Node Cost}
    (h : Rooted g start records record) : Rooted g start records record.close := by
  unfold Rooted at h ⊢
  cases hprevious : record.previous with
  | none => simpa [Record.close, hprevious] using h
  | some slot =>
      simp only [hprevious] at h
      obtain ⟨parent, hparent, hfollows⟩ := h
      simp only [Record.close, hprevious]
      exact ⟨parent, hparent, hfollows.closed, hfollows.older, hfollows.not_goal,
        hfollows.neighbor, hfollows.cost_eq⟩

/-- Only closed records are pointed to, so records that keep those keep every route. -/
theorem Rooted.mono {records later : Array (Record Node Cost)} {record : Record Node Cost}
    (hkept : ∀ (slot : Nat) (parent : Record Node Cost), parent.closed = true →
      records[slot]? = some parent → later[slot]? = some parent)
    (h : Rooted g start records record) : Rooted g start later record := by
  unfold Rooted at h ⊢
  cases hprevious : record.previous with
  | none => simpa [hprevious] using h
  | some slot =>
      simp only [hprevious] at h ⊢
      obtain ⟨parent, hparent, hfollows⟩ := h
      exact ⟨parent, hkept slot parent hfollows.closed hparent, hfollows⟩

/-- A route goes on with a record that follows its last one and has a new key. -/
theorem IsRoute.concat {parent record : Record Node Cost} {path : List Node}
    (h : IsRoute g start parent path) (hfollows : Follows g parent record)
    (hnew : g.key record.node ∉ path.map g.key) :
    IsRoute g start record (path ++ [record.node]) := by
  refine ⟨?_, ?_, ?_, ?_, ?_, ?_⟩
  · rw [List.head?_append, h.head_eq]
    rfl
  · exact List.getLast?_concat
  · rw [List.isChain_append]
    refine ⟨h.linked, List.isChain_singleton _, ?_⟩
    intro a ha b hb
    rw [h.last_eq] at ha
    cases ha
    cases hb
    exact hfollows.neighbor
  · intro node hnode
    have hsplit := List.dropLast_append_getLast? parent.node h.last_eq
    rw [List.dropLast_concat, ← hsplit] at hnode
    rcases List.mem_append.mp hnode with hbefore | hlast
    · exact h.not_goal node hbefore
    · rw [List.mem_singleton.mp hlast]
      exact hfollows.not_goal
  · rw [List.map_append, List.nodup_append]
    refine ⟨h.keys_nodup, by simp, ?_⟩
    intro key hkey last hlast hsame
    obtain rfl : last = g.key record.node := by simpa using hlast
    exact hnew (hsame ▸ hkey)
  · rw [g.costAlong_concat default path h.last_eq, ← h.cost_eq]
    exact hfollows.cost_eq

/-- Following the route of a record back ends at the start and reads off a walk from there.
Its nodes belong to records that are not younger than the record. -/
theorem exists_traceBack {records : Array (Record Node Cost)}
    (hrooted : ∀ (slot : Nat) (record : Record Node Cost), records[slot]? = some record →
      Rooted g start records record)
    (hunique : ∀ (i j : Nat) (a b : Record Node Cost), records[i]? = some a →
      records[j]? = some b → g.key a.node = g.key b.node → a = b)
    {slot : Nat} {record : Record Node Cost} (hrecord : records[slot]? = some record) :
    ∃ path, (∀ limit ≥ path.length, ∀ tail,
        traceBack records limit (some slot) tail = some (path ++ tail)) ∧
      IsRoute g start record path ∧
      ∀ node ∈ path, ∃ (i : Nat) (other : Record Node Cost), records[i]? = some other ∧
        other.node = node ∧ other.stamp ≤ record.stamp := by
  -- The stamps decrease on the way back.
  induction hstamp : record.stamp using Nat.strongRecOn generalizing slot record with
  | ind stamp ih =>
      have hroot := hrooted slot record hrecord
      unfold Rooted at hroot
      cases hprevious : record.previous with
      | none =>
          simp only [hprevious] at hroot
          obtain ⟨rfl, hcost⟩ := hroot
          refine ⟨[record.node], ?_, ⟨rfl, rfl, by simp, by simp, by simp, hcost⟩, ?_⟩
          · intro limit hlimit tail
            obtain ⟨limit, rfl⟩ : ∃ k, limit = k + 1 :=
              ⟨limit - 1, (Nat.sub_add_cancel hlimit).symm⟩
            simp only [traceBack, hrecord, hprevious]
            rfl
          · intro node hnode
            exact ⟨slot, record, hrecord, (List.mem_singleton.mp hnode).symm, Nat.le_of_eq hstamp⟩
      | some before =>
          simp only [hprevious] at hroot
          obtain ⟨parent, hparent, hfollows⟩ := hroot
          have holder : parent.stamp < stamp := hstamp ▸ hfollows.older
          obtain ⟨path, htrace, hroute, hrecords⟩ := ih parent.stamp holder hparent rfl
          -- A record with the key of an earlier one would be that one, and so not be younger.
          have hnew : g.key record.node ∉ path.map g.key := by
            intro hkey
            obtain ⟨node, hnode, hsame⟩ := List.mem_map.mp hkey
            obtain ⟨i, other, hother, rfl, hle⟩ := hrecords node hnode
            rw [hunique i slot other record hother hrecord hsame, hstamp] at hle
            exact absurd holder (Nat.not_lt.mpr hle)
          refine ⟨path ++ [record.node], ?_, hroute.concat hfollows hnew, ?_⟩
          · intro limit hlimit tail
            rw [List.length_append, List.length_singleton] at hlimit
            obtain ⟨limit, rfl⟩ : ∃ k, limit = k + 1 := ⟨limit - 1, by omega⟩
            rw [traceBack]
            simp only [hrecord, hprevious]
            rw [htrace limit (Nat.le_of_succ_le_succ hlimit), List.append_assoc]
            rfl
          · intro node hnode
            rcases List.mem_append.mp hnode with hbefore | hlast
            · obtain ⟨i, other, hother, hsame, hle⟩ := hrecords node hbefore
              exact ⟨i, other, hother, hsame, Nat.le_trans hle (Nat.le_of_lt holder)⟩
            · exact ⟨slot, record, hrecord, (List.mem_singleton.mp hlast).symm,
                Nat.le_of_eq hstamp⟩

end Records

namespace Exploration

variable [BEq Key] [LawfulBEq Key] [Hashable Key] [Add Cost] [Ord Cost] [Inhabited Cost]
  {g : CostGraph Node Key Cost} {start : Node}

/-- What holds of a search at all times, whatever the graph. -/
structure Sound (g : CostGraph Node Key Cost) (start : Node) (x : Exploration Node Key Cost) :
    Prop where
  indexed : Indexed g x
  rooted : ∀ (slot : Nat) (record : Record Node Cost), x.records[slot]? = some record →
    Rooted g start x.records record
  stamp_le : ∀ (slot : Nat) (record : Record Node Cost), x.records[slot]? = some record →
    record.stamp ≤ x.stamp

theorem sound_start (g : CostGraph Node Key Cost) (start : Node) :
    Sound g start (Exploration.start g start) := by
  have honly : ∀ (slot : Nat) (record : Record Node Cost),
      (Exploration.start g start).records[slot]? = some record →
        record = ⟨start, false, default, g.estimate start, none, 0⟩ := by
    intro slot record h
    cases slot with
    | zero => simpa [Exploration.start, eq_comm] using h
    | succ slot => simp [Exploration.start] at h
  refine ⟨Indexed.start g start, ?_, ?_⟩
  · intro slot record h
    rw [honly slot record h]
    exact ⟨rfl, rfl⟩
  · intro slot record h
    rw [honly slot record h]
    exact Nat.zero_le _

omit [LawfulBEq Key] [Ord Cost] in
theorem Sound.select {x : Exploration Node Key Cost} (hx : Sound g start x) {slot : Nat}
    {record : Record Node Cost} (hrecord : x.records[slot]? = some record)
    (hopen : record.closed = false) (rest : Queue (Entry Cost)) :
    Sound g start (x.select slot record rest) := by
  have hkept : ∀ (i : Nat) (parent : Record Node Cost), parent.closed = true →
      x.records[i]? = some parent → (x.select slot record rest).records[i]? = some parent := by
    intro i parent hclosed hparent
    simp only [Exploration.select, getElem?_replace hrecord]
    rw [if_neg, hparent]
    rintro rfl
    rw [hrecord] at hparent
    cases hparent
    rw [hopen] at hclosed
    cases hclosed
  refine ⟨hx.indexed.select hrecord rest, ?_, ?_⟩
  · intro i other hother
    refine Rooted.mono hkept ?_
    simp only [Exploration.select, getElem?_replace hrecord] at hother
    split at hother
    · cases hother
      exact (hx.rooted slot record hrecord).close
    · exact hx.rooted i other hother
  · intro i other hother
    simp only [Exploration.select, getElem?_replace hrecord] at hother
    split at hother
    · cases hother
      exact hx.stamp_le slot record hrecord
    · exact hx.stamp_le i other hother

theorem Sound.discover {x : Exploration Node Key Cost} (hx : Sound g start x) {source : Nat}
    {origin : Record Node Cost} (horigin : x.records[source]? = some origin)
    (hclosed : origin.closed = true) (hgoal : g.isGoal origin.node = false) {node : Node}
    (hnode : node ∈ g.neighbors origin.node) :
    Sound g start (Exploration.discover g source origin x node) := by
  have hext : Extends x (Exploration.discover g source origin x node) := extends_discover x node
  refine ⟨hx.indexed.discover node, ?_, ?_⟩
  · intro i record hrecord
    rcases record_discover hrecord with hold | ⟨rfl, _, _⟩
    · refine Rooted.mono ?_ (hx.rooted i record hold)
      intro slot parent hparent
      exact (hext.closed_iff slot parent hparent).mpr
    · refine ⟨origin, (hext.closed_iff source origin hclosed).mpr horigin, hclosed, ?_, hgoal,
        hnode, rfl⟩
      exact Nat.lt_succ_of_le (hx.stamp_le source origin horigin)
  · intro i record hrecord
    rcases record_discover hrecord with hold | ⟨rfl, hstamp, _⟩
    · exact Nat.le_trans (hx.stamp_le i record hold) hext.stamp_le
    · rw [hstamp]
      exact Nat.le_refl _

theorem Sound.foldl_discover {x : Exploration Node Key Cost} (hx : Sound g start x) {source : Nat}
    {origin : Record Node Cost} (horigin : x.records[source]? = some origin)
    (hclosed : origin.closed = true) (hgoal : g.isGoal origin.node = false) {nodes : List Node}
    (hnodes : ∀ node ∈ nodes, node ∈ g.neighbors origin.node) :
    Sound g start (nodes.foldl (Exploration.discover g source origin) x) := by
  induction nodes generalizing x with
  | nil => exact hx
  | cons node nodes ih =>
      rw [List.forall_mem_cons] at hnodes
      have hext : Extends x (Exploration.discover g source origin x node) :=
        extends_discover x node
      exact ih (hx.discover horigin hclosed hgoal hnodes.1)
        ((hext.closed_iff source origin hclosed).mpr horigin) hnodes.2

theorem Sound.expand {x : Exploration Node Key Cost} (hx : Sound g start x) {slot : Nat}
    {record : Record Node Cost} (hrecord : x.records[slot]? = some record)
    (hclosed : record.closed = true) (hgoal : g.isGoal record.node = false) :
    Sound g start (x.expand g slot record) := by
  have hfold := hx.foldl_discover hrecord hclosed hgoal (fun _ h => h)
  exact ⟨hfold.indexed, hfold.rooted, hfold.stamp_le⟩

theorem Sound.step {x y : Exploration Node Key Cost} (hx : Sound g start x)
    (h : x.step g = .expanded y) : Sound g start y := by
  obtain ⟨slot, record, rest, _, hrecord, hopen, hgoal, rfl⟩ := of_step_eq_expanded h
  have hclosed : (x.select slot record rest).records[slot]? = some record.close := by
    simp [Exploration.select, getElem?_replace hrecord]
  exact (hx.select hrecord hopen rest).expand hclosed rfl hgoal

end Exploration

namespace CostGraph

variable [BEq Key] [LawfulBEq Key] [Hashable Key] [Add Cost] [Ord Cost] [Inhabited Cost]
  {g : CostGraph Node Key Cost} {start : Node}

/-- The state in which a search reaches a goal is sound, and the goal has just been closed. -/
theorem exists_sound_of_reached {limit : Nat} {records : Array (Record Node Cost)} {slot : Nat}
    (h : (g.search limit start).verdict = .reached records slot) :
    ∃ (y : Exploration Node Key Cost) (goal : Record Node Cost), y.Sound g start ∧
      y.records = records ∧ records[slot]? = some goal ∧ g.isGoal goal.node = true := by
  obtain ⟨x, record, rest, hx, _, hrecord, hopen, hgoal, heq⟩ :=
    exists_selection_of_reached (fun _ _ hx hstep => hx.step hstep)
      (Exploration.sound_start g start) h
  rw [heq] at h
  cases h
  refine ⟨_, record.close, hx.select hrecord hopen rest, rfl, ?_, hgoal⟩
  simp [Exploration.select, Exploration.getElem?_replace hrecord]

/-- A search that reaches a goal has a route to it, and the path is this route. -/
theorem isRoute_of_reached {limit : Nat} {records : Array (Record Node Cost)} {slot : Nat}
    (h : (g.search limit start).verdict = .reached records slot) :
    ∃ goal, records[slot]? = some goal ∧ g.isGoal goal.node = true ∧
      (∀ length ≥ records.size,
        traceBack records length (some slot) [] = some (g.search limit start).path) ∧
      IsRoute g start goal (g.search limit start).path := by
  obtain ⟨y, goal, hy, rfl, hslot, hgoal⟩ :=
    exists_sound_of_reached h
  have hunique : ∀ (i j : Nat) (a b : Record Node Cost), y.records[i]? = some a →
      y.records[j]? = some b → g.key a.node = g.key b.node → a = b := by
    intro i j a b ha hb hkey
    have hsame := hy.indexed.slot_unique ha hb hkey
    rw [hsame, hb] at ha
    exact (Option.some.inj ha).symm
  obtain ⟨path, htrace, hroute, hrecords⟩ := exists_traceBack hy.rooted hunique hslot
  have hlength : path.length ≤ y.records.size := by
    apply length_le_of_keys_nodup g hroute.keys_nodup
    intro node hnode
    obtain ⟨i, record, hrecord, hsame, _⟩ := hrecords node hnode
    exact ⟨record, Array.mem_of_getElem? hrecord, hsame⟩
  have hpath : (g.search limit start).path = path := by
    simp [Outcome.path, h, htrace y.records.size hlength]
  rw [hpath]
  refine ⟨goal, hslot, hgoal, ?_, hroute⟩
  intro length hle
  rw [htrace length (Nat.le_trans hlength hle), List.append_nil]

/-- A search has a path exactly if it reached a goal. -/
theorem path_ne_nil_iff {limit : Nat} :
    (g.search limit start).path ≠ [] ↔
      ∃ records slot, (g.search limit start).verdict = .reached records slot := by
  constructor
  · intro hpath
    cases hverdict : (g.search limit start).verdict with
    | reached records slot => exact ⟨records, slot, rfl⟩
    | exhausted => exact absurd (by simp [Outcome.path, hverdict]) hpath
    | cutOff => exact absurd (by simp [Outcome.path, hverdict]) hpath
  · rintro ⟨records, slot, hverdict⟩ hpath
    obtain ⟨_, _, _, _, hroute⟩ := isRoute_of_reached hverdict
    have hhead := hroute.head_eq
    rw [hpath] at hhead
    cases hhead

/-- A search has a path exactly if it reached a goal. The path is then the route of the goal,
followed back over no more records than there are, and a walk from the start. -/
theorem search_path_route (g : CostGraph Node Key Cost) (limit : Nat) (start : Node) :
    let outcome := g.search limit start
    (outcome.path ≠ [] ↔ ∃ records slot, outcome.verdict = .reached records slot) ∧
      ∀ records slot, outcome.verdict = .reached records slot →
        ∃ goal, records[slot]? = some goal ∧ g.isGoal goal.node = true ∧
          (∀ length ≥ records.size,
            traceBack records length (some slot) [] = some outcome.path) ∧
          IsRoute g start goal outcome.path := by
  intro outcome
  exact ⟨path_ne_nil_iff, fun _ _ h => isRoute_of_reached h⟩

end CostGraph

/-- The record that is opened for 1 is replaced by one for 11, which has the same key. -/
def detour : CostGraph Nat Nat where
  key n := n % 10
  isGoal n := n == 3
  distance a b := if a == 0 && b == 1 then 10 else -1
  estimate _ := 0
  neighbors n :=
    match n with
    | 0 => [1, 2]
    | 2 => [11]
    | 11 => [3]
    | _ => []

theorem detour_path_route : (detour.search 9 0).path = [0, 2, 11, 3] ∧
    ∃ goal, goal.cost = -3 ∧ IsRoute detour 0 goal [0, 2, 11, 3] := by
  have hpath : (detour.search 9 0).path = [0, 2, 11, 3] := by
    simp +decide [detour, CostGraph.search, CostGraph.run, Exploration.start, Exploration.step,
      Exploration.expand, Exploration.discover, Exploration.current, Queue.popAccepted,
      Queue.insert, Queue.merge, Queue.join, Queue.rank, Outcome.path, traceBack,
      Std.HashMap.getElem_insert]
  obtain ⟨hreached, hroute⟩ := CostGraph.search_path_route detour 9 0
  obtain ⟨records, slot, h⟩ := hreached.mp (by rw [hpath]; simp)
  obtain ⟨goal, _, _, _, hgoal⟩ := hroute records slot h
  rw [hpath] at hgoal
  exact ⟨hpath, goal, hgoal.cost_eq.trans (by decide), hgoal⟩

end QueensPuzzle.Search
