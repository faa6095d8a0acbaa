/-! # Search trees

A tree of nodes that is searched depth first: a test for solutions and, for
each node, its branches in the order in which they are tried. The eager search
is limited in depth, which makes it total; on a tree that is no deeper than the
limit it misses nothing.
-/

namespace QueensPuzzle.Search

structure SearchTree (Node : Type) where
  isSolution : Node → Bool
  /-- The nodes right below a node, in the order in which they are tried. -/
  branches : Node → List Node

inductive Query (Node : Type) where
  | isSolution (node : Node)
  | branches (node : Node)
  deriving DecidableEq, Repr

namespace SearchTree

variable {Node σ : Type}

/-- Visits the nodes one after the other until a visit finds something. -/
def firstFound (visit : Node → σ → Option Node × σ) : List Node → σ → Option Node × σ
  | [], seen => (none, seen)
  | node :: rest, seen =>
      match visit node seen with
      | (some found, seen) => (some found, seen)
      | (none, seen) => firstFound visit rest seen

/-- Searches the upper `depth` levels of the tree below a node, depth first, and
returns the first solution. Every question that is asked is noted, in order. -/
def descend (tree : SearchTree Node) (note : σ → Query Node → σ) :
    Nat → Node → σ → Option Node × σ
  | 0, _, seen => (none, seen)
  | depth + 1, node, seen =>
      let seen := note seen (.isSolution node)
      if tree.isSolution node then (some node, seen)
      else firstFound (descend tree note depth) (tree.branches node) (note seen (.branches node))

def resolve (tree : SearchTree Node) (depth : Nat) (root : Node) : Option Node :=
  (tree.descend (fun _ _ => ()) depth root ()).1

def queries (tree : SearchTree Node) (depth : Nat) (root : Node) : List (Query Node) :=
  (tree.descend Array.push depth root #[]).2.toList

end SearchTree

end QueensPuzzle.Search
