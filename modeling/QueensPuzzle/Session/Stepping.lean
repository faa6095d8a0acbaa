import QueensPuzzle.Board.Position
import QueensPuzzle.Config
import QueensPuzzle.Solver

/-! # Stepping sessions

A search that a front end takes forward, one step or a span of time at a time, and
whose board it can look at in between.
-/

namespace QueensPuzzle.Session

open Search

structure Stepping where
  size : Nat
  /-- The search, which is taken out while it is advanced. -/
  walk : Option (Walk Placement)
  cells : CellCache

namespace Stepping

def new (size : Nat) : Stepping := ⟨size, some (Placement.empty size).walk, CellCache.new size⟩

def ofSize (size : Nat) : Except Fault Stepping := (BoardSize.ofNat size).map (new ·.rows)

/-- A session without a search counts as one that is over. -/
def isFinal (session : Stepping) : Bool := session.walk.all (·.isFinal)

def steps (session : Stepping) : Nat := session.walk.elim 0 (·.advances)

def candidate (session : Stepping) : Option (List Square) :=
  session.walk.bind fun walk => walk.candidate.map (·.queens)

/-- One step. A search that is over is put back as it is. -/
def advance (session : Stepping) : Except Fault Unit × Stepping :=
  match session.walk with
  | none => (.error .alreadyFinal, session)
  | some walk =>
      let taken := { session with walk := none }
      if walk.isFinal then (.error .alreadyFinal, { taken with walk := some walk })
      else
        match walk.advance Placement.tree with
        | .ok next => (.ok (), { taken with walk := some next })
        | .error fault => (.error fault, taken)

/-- What the last step reported. -/
def events (session : Stepping) : List Event := (session.walk.map (·.event)).toList

/-- A stretch of steps that were taken at a time. -/
structure Stretch where
  session : Stepping
  taken : Nat
  /-- How often the clock was read. -/
  readings : Nat
  events : List Event

/-- Advances until the end, or until the clock, read after each step, shows the deadline.
`now k` is what the clock shows when it is read for the time number `k`, from 0 on. -/
def runUntil (deadline : Float) (now : Nat → Float) : Nat → Stretch → Stretch
  | 0, stretch => stretch
  | limit + 1, stretch =>
      if stretch.session.isFinal then stretch
      else
        match stretch.session.advance with
        | (.error _, session) => { stretch with session }
        | (.ok (), session) =>
            let next : Stretch :=
              ⟨session, stretch.taken + 1, stretch.readings + 1, session.events ++ stretch.events⟩
            if deadline ≤ now stretch.readings then next else runUntil deadline now limit next

/-- Advances for a span of time, but one step at least unless the session is final. -/
def runFor (budget : Float) (now : Nat → Float) (session : Stepping) : Stretch :=
  let stretch :=
    runUntil (now 0 + budget) now (Placement.empty session.size).reach ⟨session, 0, 1, []⟩
  { stretch with events := stretch.events.reverse }

/-- The picture of the candidate; an empty board if there is none. -/
def board (session : Stepping) : Diagram × Stepping :=
  let position :=
    match session.candidate with
    | some queens => Position.ofSquares queens session.size
    | none => .empty
  let (diagram, cells) := position.describe session.cells
  (diagram, { session with cells })

end Stepping

end QueensPuzzle.Session
