import QueensPuzzle.Event
import QueensPuzzle.Search.SearchTree
import QueensPuzzle.Text.Inspect

/-! # Depth-first walks that can be paused

A walk enters the nodes of a tree in the order of the eager search, one for each
advance. It keeps the nodes from the root down to the one it is at, each with
the branches that it has not tried yet.
-/

namespace QueensPuzzle.Search

/-- A node on the way down, with the branches below it that are still untried. -/
structure Frame (Node : Type) where
  node : Node
  untried : List Node

/-- The way down from the root. The depth is kept, so that it need not be counted. -/
structure Trail (Node : Type) where
  /-- The frames from the node entered last up to the root. -/
  frames : List (Frame Node)
  depth : Nat
  depth_eq : depth = frames.length

namespace Trail

variable {Node : Type}

def empty : Trail Node := ⟨[], 0, rfl⟩

def push (frame : Frame Node) (trail : Trail Node) : Trail Node :=
  ⟨frame :: trail.frames, trail.depth + 1, by rw [trail.depth_eq, List.length_cons]⟩

@[simp] theorem frames_empty : (empty : Trail Node).frames = [] := rfl

@[simp] theorem frames_push (frame : Frame Node) (trail : Trail Node) :
    (trail.push frame).frames = frame :: trail.frames := rfl

@[ext] theorem ext {trail other : Trail Node} (h : trail.frames = other.frames) :
    trail = other := by
  obtain ⟨frames, depth, rfl⟩ := trail
  obtain ⟨frames, depth, rfl⟩ := other
  cases h
  rfl

end Trail

inductive Phase (Node : Type) where
  | searching (trail : Trail Node)
  | finished (solution : Option Node)

structure Walk (Node : Type) where
  phase : Phase Node
  advances : Nat

namespace SearchTree

variable {Node σ : Type}

/-- Enters a node below the given trail: ends at a solution, goes on otherwise. Every
question that is asked is noted, in order. -/
def enter (tree : SearchTree Node) (note : σ → Query Node → σ) (node : Node) (trail : Trail Node)
    (asked : σ) : Phase Node × σ :=
  let asked := note asked (.isSolution node)
  if tree.isSolution node then (.finished (some node), asked)
  else (.searching (trail.push ⟨node, tree.branches node⟩), note asked (.branches node))

/-- Enters the next untried node of some frames, leaving those that have none. -/
def enterNextOf (tree : SearchTree Node) (note : σ → Query Node → σ) :
    (frames : List (Frame Node)) → (depth : Nat) → depth = frames.length → σ → Phase Node × σ
  | [], _, _, asked => (.finished none, asked)
  | ⟨_, []⟩ :: frames, depth, h, asked =>
      enterNextOf tree note frames (depth - 1) (by simp [h]) asked
  | ⟨node, next :: untried⟩ :: frames, depth, h, asked =>
      tree.enter note next ⟨⟨node, untried⟩ :: frames, depth, h⟩ asked

def enterNext (tree : SearchTree Node) (note : σ → Query Node → σ) (trail : Trail Node)
    (asked : σ) : Phase Node × σ :=
  tree.enterNextOf note trail.frames trail.depth trail.depth_eq asked

/-- The walk that has just entered the root, with what that asked. -/
def walkAsking (tree : SearchTree Node) (note : σ → Query Node → σ) (root : Node) (asked : σ) :
    Walk Node × σ :=
  let (phase, asked) := tree.enter note root .empty asked
  (⟨phase, 0⟩, asked)

def walk (tree : SearchTree Node) (root : Node) : Walk Node :=
  (tree.walkAsking (fun _ _ => ()) root ()).1

end SearchTree

namespace Walk

variable {Node σ : Type}

def isFinal (walk : Walk Node) : Bool :=
  match walk.phase with
  | .searching _ => false
  | .finished _ => true

/-- The node entered last, or the solution. A walk without one has found none. -/
def candidate (walk : Walk Node) : Option Node :=
  match walk.phase with
  | .searching trail => trail.frames.head?.map (·.node)
  | .finished solution => solution

def solution (walk : Walk Node) : Option Node :=
  match walk.phase with
  | .searching _ => none
  | .finished solution => solution

/-- How many nodes there are from the root down to the candidate; 0 at the end. -/
def depth (walk : Walk Node) : Nat :=
  match walk.phase with
  | .searching trail => trail.depth
  | .finished _ => 0

/-- Enters one more node, or finds that there is none. Every question that is asked is
noted, in order. -/
def advanceAsking (tree : SearchTree Node) (note : σ → Query Node → σ) (walk : Walk Node)
    (asked : σ) : Except Fault (Walk Node × σ) :=
  match walk.phase with
  | .searching trail =>
      let (phase, asked) := tree.enterNext note trail asked
      .ok (⟨phase, walk.advances + 1⟩, asked)
  | .finished _ => .error .alreadyFinal

def advance (tree : SearchTree Node) (walk : Walk Node) : Except Fault (Walk Node) :=
  (walk.advanceAsking tree (fun _ _ => ()) ()).map (·.1)

theorem advance_eq_error_iff (tree : SearchTree Node) (walk : Walk Node) (fault : Fault) :
    walk.advance tree = .error fault ↔ walk.isFinal = true ∧ fault = .alreadyFinal := by
  obtain ⟨phase, advances⟩ := walk
  cases phase <;> simp [advance, advanceAsking, Except.map, isFinal, eq_comm]

/-- What the last move asked about the tree. -/
def queries (walk : Walk Node) : List (Query Node) :=
  match walk.phase with
  | .searching trail =>
      match trail.frames with
      | [] => []
      | frame :: _ => [.isSolution frame.node, .branches frame.node]
  | .finished (some node) => [.isSolution node]
  | .finished none => []

def event (walk : Walk Node) : Event :=
  match walk.phase with
  | .searching trail => .enteredDepth trail.depth
  | .finished (some _) => .solutionFound walk.advances
  | .finished none => .treeExhausted walk.advances

/-- The walk on one line, with `node` for the text of its candidate. -/
def inspect (node : Node → String) (walk : Walk Node) : String :=
  Text.parts "Step"
    [("final", Text.bool walk.isFinal),
      ("candidate", Text.option (walk.candidate.map node)),
      ("advances", toString walk.advances),
      ("depth", toString walk.depth)]

/-- Advances `count` times and notes every walk that an advance leads to. Stops with
the fault of the first advance that fails. -/
def advanceNoting (tree : SearchTree Node) (note : σ → Walk Node → σ) :
    Nat → Walk Node → σ → Except Fault (Walk Node) × σ
  | 0, walk, seen => (.ok walk, seen)
  | count + 1, walk, seen =>
      match walk.advance tree with
      | .ok next => advanceNoting tree note count next (note seen next)
      | .error fault => (.error fault, seen)

def runNoting (tree : SearchTree Node) (note : σ → Walk Node → σ) :
    Nat → Walk Node → σ → Walk Node × σ
  | 0, walk, seen => (walk, seen)
  | limit + 1, walk, seen =>
      match walk.advance tree with
      | .ok next => runNoting tree note limit next (note seen next)
      | .error _ => (walk, seen)

/-- Advances until the end, or `limit` times, and notes every question that is asked. -/
def runAsking (tree : SearchTree Node) (note : σ → Query Node → σ) :
    Nat → Walk Node → σ → Walk Node × σ
  | 0, walk, asked => (walk, asked)
  | limit + 1, walk, asked =>
      match walk.advanceAsking tree note asked with
      | .ok (next, asked) => runAsking tree note limit next asked
      | .error _ => (walk, asked)

def run (tree : SearchTree Node) (limit : Nat) (walk : Walk Node) : Walk Node :=
  (walk.runAsking tree (fun _ _ => ()) limit ()).1

end Walk

end QueensPuzzle.Search
