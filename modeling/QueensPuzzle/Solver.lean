import QueensPuzzle.Placement
import QueensPuzzle.Search.BestFirst
import QueensPuzzle.Search.Walk

/-! # Solving a board

Placements as a graph for the best-first search and as a tree for the depth-first
one. Both put one queen on each row below the last queen. The costs of the graph
are negated numbers of open squares: they lead the search to placements that keep
most freedom and are no distances in any stricter sense.
-/

namespace QueensPuzzle

open Search

namespace Placement

def graph : CostGraph Placement (List Square) where
  key := queens
  isGoal := isComplete
  distance _ next := -(next.openCount : Int)
  estimate placement := -(placement.openCount : Int)
  neighbors := successors

def tree : SearchTree Placement where
  isSolution := isComplete
  branches := sortedSuccessors

/-- At least as many as there are placements to reach, and one more. A row has at most
`size` squares, so there are no more than `1 + size + ... + size ^ size` placements. -/
def reach (placement : Placement) : Nat := Nat.pow (placement.size + 1) placement.size + 1

/-- More levels than there are rows. -/
def height (placement : Placement) : Nat := placement.size + 1

def explore (root : Placement) : Outcome Placement := graph.search root.reach root

def resolve (root : Placement) : Option Placement := tree.resolve root.height root

/-- The depth-first search from a placement, to be taken step by step. -/
def walk (root : Placement) : Walk Placement := tree.walk root

def inspectWalk (walk : Walk Placement) : String :=
  Text.parts "QueensStep" [("inner", walk.inspect inspect)]

end Placement

structure Solution where
  queens : Option (List Square)
  events : List Event

/-- Places as many queens as the board has rows, if that can be done. -/
def Engine.solve (engine : Engine) (size : Nat) : Solution :=
  let root := Placement.empty size
  let (last, events) :=
    match engine with
    | .astar =>
        let outcome := root.explore
        (outcome.path.getLast?, outcome.events)
    | .backtracking => (root.resolve, [])
  ⟨last.map (·.queens), events ++ [.solved size engine last.isSome]⟩

end QueensPuzzle
