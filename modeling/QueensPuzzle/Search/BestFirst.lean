import Std.Data.HashMap
import QueensPuzzle.Event
import QueensPuzzle.Search.CostGraph
import QueensPuzzle.Search.Queue

/-! # Best-first search

Every place that was discovered has a record, numbered in order of discovery, that
points back to the record from which it was reached. The queue may hold several
entries for one record; only the entry of its latest discovery counts, and the others
are dropped when they come to the top. A record that is open may be replaced.
-/

namespace QueensPuzzle.Search

structure Record (Node Cost : Type) where
  node : Node
  closed : Bool
  /-- Cost of the route from the start. -/
  cost : Cost
  /-- The cost with the estimate of what is still to come. -/
  priority : Cost
  /-- Slot of the record from which this one was reached; the start has none. -/
  previous : Option Nat
  /-- Number of the discovery that gave the record its route. -/
  stamp : Nat

/-- Follows a route back, record after record, and puts its nodes in front of `path`.
Nothing comes out of a route that leaves the records or has more than `limit` of them. -/
def traceBack {Node Cost : Type} (records : Array (Record Node Cost)) (limit : Nat)
    (cursor : Option Nat) (path : List Node) : Option (List Node) :=
  match cursor with
  | none => some path
  | some slot =>
      match limit with
      | 0 => none
      | limit + 1 =>
          match records[slot]? with
          | none => none
          | some record => traceBack records limit record.previous (record.node :: path)

structure Entry (Cost : Type) where
  priority : Cost
  stamp : Nat
  slot : Nat
  deriving DecidableEq, Repr

/-- Lowest priority first; of equal priorities the latest discovery first. -/
def Entry.before {Cost : Type} [Ord Cost] (a b : Entry Cost) : Bool :=
  ((compare a.priority b.priority).then
    ((compare b.stamp a.stamp).then (compare a.slot b.slot))).isLE

/-- One closed record whose neighbors were taken in. -/
structure Expansion (Node : Type) where
  slot : Nat
  node : Node
  /-- How many records there were afterwards. -/
  discovered : Nat

inductive Verdict (Node Cost : Type) where
  /-- The record in `slot` was closed and is a goal. -/
  | reached (records : Array (Record Node Cost)) (slot : Nat)
  | exhausted
  | cutOff

structure Outcome (Node : Type) (Cost : Type := Int) where
  verdict : Verdict Node Cost
  tests : Array Node
  expansions : Array (Expansion Node)

namespace Outcome

variable {Node Cost : Type}

/-- The nodes from the start to the goal, or none at all. -/
def path (outcome : Outcome Node Cost) : List Node :=
  match outcome.verdict with
  | .reached records slot => (traceBack records records.size (some slot) []).getD []
  | _ => []

def expanded (outcome : Outcome Node Cost) : List Node :=
  outcome.expansions.toList.map (·.node)

def tested (outcome : Outcome Node Cost) : List Node := outcome.tests.toList

def events (outcome : Outcome Node Cost) : List Event :=
  let expansions := outcome.expansions.toList.map fun e => .expanded e.slot e.discovered
  match outcome.verdict with
  | .reached .. => expansions ++ [.goalReached outcome.expansions.size]
  | .exhausted => expansions ++ [.openSetExhausted outcome.expansions.size]
  | .cutOff => expansions

end Outcome

/-- A best-first search between two selections. -/
structure Exploration (Node Key Cost : Type) [BEq Key] [Hashable Key] where
  records : Array (Record Node Cost)
  /-- The record of each key that was met. -/
  slots : Std.HashMap Key Nat
  queue : Queue (Entry Cost)
  /-- Number of the latest discovery. -/
  stamp : Nat
  tests : Array Node
  expansions : Array (Expansion Node)

namespace Exploration

variable {Node Key Cost : Type} [BEq Key] [Hashable Key] [Add Cost] [Ord Cost] [Inhabited Cost]

/-- Only the start is known, as discovery number 0. -/
def start (g : CostGraph Node Key Cost) (node : Node) : Exploration Node Key Cost :=
  let priority := g.estimate node
  { records := #[⟨node, false, default, priority, none, 0⟩]
    slots := (∅ : Std.HashMap Key Nat).insert (g.key node) 0
    queue := Queue.empty.insert Entry.before ⟨priority, 0, 0⟩
    stamp := 0
    tests := #[]
    expansions := #[] }

/-- The record that an entry stands for, unless the entry is outdated. -/
def current (records : Array (Record Node Cost)) (entry : Entry Cost) :
    Option (Nat × Record Node Cost) :=
  match records[entry.slot]? with
  | some record =>
      if !record.closed && record.stamp == entry.stamp &&
          compare record.priority entry.priority == .eq then
        some (entry.slot, record)
      else none
  | none => none

/-- Takes in one neighbor of the closed record `origin`, the one in slot `source`. A new key
gets a record of its own; an open record is replaced when the new priority is lower, and is
left alone otherwise. -/
def discover (g : CostGraph Node Key Cost) (source : Nat) (origin : Record Node Cost)
    (x : Exploration Node Key Cost) (node : Node) : Exploration Node Key Cost :=
  let ⟨records, slots, queue, stamp, tests, expansions⟩ := x
  let cost := origin.cost + g.distance origin.node node
  let priority := cost + g.estimate node
  let key := g.key node
  let record : Record Node Cost := ⟨node, false, cost, priority, some source, stamp + 1⟩
  let enqueue (slot : Nat) := queue.insert Entry.before ⟨priority, stamp + 1, slot⟩
  match slots[key]? with
  | none =>
      let slot := records.size
      ⟨records.push record, slots.insert key slot, enqueue slot, stamp + 1, tests, expansions⟩
  | some slot =>
      let outdone :=
        match records[slot]? with
        | some known => known.closed || (compare known.priority priority).isLE
        | none => true
      if outdone then ⟨records, slots, queue, stamp, tests, expansions⟩
      else
        ⟨records.setIfInBounds slot record, slots, enqueue slot, stamp + 1, tests, expansions⟩

/-- Takes in the neighbors of a closed record in their order. -/
def expand (g : CostGraph Node Key Cost) (x : Exploration Node Key Cost) (slot : Nat)
    (record : Record Node Cost) : Exploration Node Key Cost :=
  let ⟨records, slots, queue, stamp, tests, expansions⟩ :=
    (g.neighbors record.node).foldl (discover g slot record) x
  let expansion := ⟨slot, record.node, records.size⟩
  ⟨records, slots, queue, stamp, tests, expansions.push expansion⟩

inductive Step (Node Key Cost : Type) [BEq Key] [Hashable Key] where
  | ended (outcome : Outcome Node Cost)
  | expanded (next : Exploration Node Key Cost)

/-- Closes the best open record and asks whether it is a goal; if not, expands it. -/
def step (g : CostGraph Node Key Cost) (x : Exploration Node Key Cost) : Step Node Key Cost :=
  let ⟨records, slots, queue, stamp, tests, expansions⟩ := x
  match queue.popAccepted Entry.before (current records) with
  | none => .ended ⟨.exhausted, tests, expansions⟩
  | some ((slot, record), queue) =>
      let closed := { record with closed := true }
      let records := records.setIfInBounds slot closed
      let tests := tests.push record.node
      if g.isGoal record.node then .ended ⟨.reached records slot, tests, expansions⟩
      else .expanded (expand g ⟨records, slots, queue, stamp, tests, expansions⟩ slot closed)

end Exploration

namespace CostGraph

variable {Node Key Cost : Type} [BEq Key] [Hashable Key] [Add Cost] [Ord Cost] [Inhabited Cost]

def run (g : CostGraph Node Key Cost) : Nat → Exploration Node Key Cost → Outcome Node Cost
  | 0, x => ⟨.cutOff, x.tests, x.expansions⟩
  | limit + 1, x =>
      match x.step g with
      | .ended outcome => outcome
      | .expanded next => g.run limit next

/-- Searches from a node, with at most `limit` selections. A graph with fewer than
`limit` keys in reach is searched to the end. -/
def search (g : CostGraph Node Key Cost) (limit : Nat) (start : Node) : Outcome Node Cost :=
  g.run limit (Exploration.start g start)

end CostGraph

end QueensPuzzle.Search
