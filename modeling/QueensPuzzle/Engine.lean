import QueensPuzzle.Fault

/-! # Search engines

The two ways to solve a board in one go, with their names.
-/

namespace QueensPuzzle

inductive Engine where
  /-- Best-first search over placements. -/
  | astar
  /-- Depth-first search, placements that leave most squares open first. -/
  | backtracking
  deriving DecidableEq, Repr

namespace Engine

instance : Inhabited Engine := ⟨.astar⟩

def all : List Engine := [.astar, .backtracking]

/-- The engine after this one, in a circle. -/
def next : Engine → Engine
  | .astar => .backtracking
  | .backtracking => .astar

@[simp] theorem next_next (engine : Engine) : engine.next.next = engine := by
  cases engine <;> rfl

def name : Engine → String
  | .astar => "astar"
  | .backtracking => "backtracking"

/-- Every spelling that a reader of names takes for the engine, in small letters. -/
def spellings : Engine → List String
  | .astar => ["astar", "a*", "a-star"]
  | .backtracking => ["backtracking", "backtrack", "dfs"]

/-- The 26 letters A to Z in small letters, every other character as it is. -/
def foldCase (text : String) : String := text.map Char.toLower

def ofName (text : String) : Except Fault Engine :=
  match all.find? fun engine => (foldCase text) ∈ engine.spellings with
  | some engine => .ok engine
  | none => .error (.unknownEngine text)

end Engine

end QueensPuzzle
