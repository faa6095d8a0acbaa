/-! # Graphs for best-first search

What a best-first search has to know of a graph. Nothing is assumed of the
functions: two nodes may share a key, distances and estimates may be negative,
and neighbor lists may hold cycles and repetitions. Costs may be of any kind that
can be added, compared and started from a default.
-/

namespace QueensPuzzle.Search

/-- A graph given by functions. Nodes with equal keys are one place of the graph. -/
structure CostGraph (Node Key : Type) (Cost : Type := Int) where
  key : Node → Key
  isGoal : Node → Bool
  distance : Node → Node → Cost
  /-- Guess of the cost that is still to come from a node to a goal. -/
  estimate : Node → Cost
  neighbors : Node → List Node

end QueensPuzzle.Search
