import QueensPuzzle.Console.Game
import QueensPuzzle.Proofs.Placement.Walks

/-! # Steps of a search that is played

A step moves the walk that is pending, or a new one. Where that walk arises from the empty board
and is not at its end, it goes on, and the step has one of three outcomes: the next candidate is
shown, it is a solution, or there is none left.
-/

namespace QueensPuzzle.Console.Game

open Search

variable {game : Game} {walk next : Walk Placement} {placement : Placement}

/-- The walk that the next step moves. -/
def nextWalk (game : Game) : Walk Placement :=
  game.pending.getD (Placement.empty game.rows).walk

/-- The game at the beginning of a step, once a search is there to be moved. -/
def started (game : Game) : Game := if game.pending.isSome then game else game.startSearch

theorem stepOnce_eq (game : Game) : game.stepOnce = game.started.advance game.nextWalk := by
  unfold stepOnce started nextWalk
  cases game.pending <;> rfl

theorem showCandidate_of_some (h : walk.candidate = some placement) (game : Game) :
    game.showCandidate walk = { game with position := .ofSquares placement.queens game.rows } := by
  rw [showCandidate, h]

theorem showCandidate_of_none (h : walk.candidate = none) (game : Game) :
    game.showCandidate walk = game := by
  rw [showCandidate, h]

/-- A search begins with the board cleared. -/
theorem startSearch_eq (game : Game) :
    game.startSearch =
      { game with
        position := .empty
        steps := 0
        message := none
        pending := some (Placement.empty game.rows).walk } := by
  rw [startSearch, showCandidate_of_some (Placement.candidate_walk game.rows)]
  rfl

theorem rows_started (game : Game) : game.started.rows = game.rows := by
  unfold started
  split
  · rfl
  · rw [startSearch_eq]
    rfl

/-! ## The outcomes of a step -/

/-- The game with the board of a placement that a search came to in some number of steps. -/
def showing (placement : Placement) (steps : Nat) (game : Game) : Game :=
  { game with position := .ofSquares placement.queens game.rows, steps }

/-- The game in which a search has just found a solution. -/
def solvedIn (placement : Placement) (steps : Nat) (game : Game) : Game :=
  { game.showing placement steps with
    pending := none, status := .solved, message := some (.solvedIn steps) }

/-- The game in which a search has just found that there is nothing left. -/
def unsolvedAfter (steps : Nat) (game : Game) : Game :=
  { game with
    position := .empty
    steps
    pending := none
    status := .noSolution
    message := some (.noSolutionAfter steps) }

theorem advance_of_searching (hfinal : walk.isFinal = false)
    (hadvance : walk.advance Placement.tree = .ok next) (hnext : next.isFinal = false)
    (hcandidate : next.candidate = some placement) (game : Game) :
    game.advance walk =
      ({ game.showing placement next.advances with pending := some next }, [next.event]) := by
  unfold advance
  simp only [hfinal, hadvance, hnext, Bool.false_eq_true, if_false]
  rw [showCandidate_of_some hcandidate]
  rfl

theorem advance_of_solution (hfinal : walk.isFinal = false)
    (hadvance : walk.advance Placement.tree = .ok next) (hnext : next.isFinal = true)
    (hcandidate : next.candidate = some placement) (game : Game) :
    game.advance walk =
      (game.solvedIn placement next.advances,
        [next.event, .playbackFinished true next.advances]) := by
  have hsolution : next.solution = some placement := by
    rw [next.solution_eq_candidate hnext, hcandidate]
  unfold advance finish
  simp only [hfinal, hadvance, hnext, Bool.false_eq_true, if_false, if_true]
  rw [showCandidate_of_some hcandidate, hsolution]
  rfl

theorem advance_of_exhausted (hfinal : walk.isFinal = false)
    (hadvance : walk.advance Placement.tree = .ok next) (hnext : next.isFinal = true)
    (hcandidate : next.candidate = none) (game : Game) :
    game.advance walk =
      (game.unsolvedAfter next.advances,
        [next.event, .playbackFinished false next.advances]) := by
  have hsolution : next.solution = none := by
    rw [next.solution_eq_candidate hnext, hcandidate]
  unfold advance finish
  simp only [hfinal, hadvance, hnext, Bool.false_eq_true, if_false, if_true]
  rw [showCandidate_of_none hcandidate, hsolution]
  rfl

/-- All that a step can do. It does not fail, and it never meets a walk that is at its end. -/
theorem advance_cases (harises : Placement.Arises game.rows walk) (hfinal : walk.isFinal = false) :
    ∃ next, walk.advance Placement.tree = .ok next ∧ Placement.Arises game.rows next ∧
      ((∃ placement, next.candidate = some placement ∧ next.isFinal = false ∧
          game.advance walk =
            ({ game.showing placement next.advances with pending := some next }, [next.event])) ∨
        (∃ placement, next.candidate = some placement ∧ next.isFinal = true ∧
          game.advance walk =
            (game.solvedIn placement next.advances,
              [next.event, .playbackFinished true next.advances])) ∨
        next.candidate = none ∧
          game.advance walk =
            (game.unsolvedAfter next.advances,
              [next.event, .playbackFinished false next.advances])) := by
  obtain ⟨next, hadvance⟩ := (SearchTree.exists_advance_iff Placement.tree walk).mpr hfinal
  have hnext := harises.advance hadvance
  refine ⟨next, hadvance, hnext, ?_⟩
  cases hend : next.isFinal with
  | false =>
      obtain ⟨placement, hcandidate⟩ := hnext.exists_candidate hend
      exact .inl ⟨placement, hcandidate, rfl,
        advance_of_searching hfinal hadvance hend hcandidate game⟩
  | true =>
      cases hcandidate : next.candidate with
      | some placement =>
          exact .inr (.inl ⟨placement, rfl, rfl,
            advance_of_solution hfinal hadvance hend hcandidate game⟩)
      | none => exact .inr (.inr ⟨rfl, advance_of_exhausted hfinal hadvance hend hcandidate game⟩)

/-- The outcomes of a step, whether or not a search is pending. -/
theorem stepOnce_cases (harises : Placement.Arises game.rows game.nextWalk)
    (hfinal : game.nextWalk.isFinal = false) :
    ∃ next, game.nextWalk.advance Placement.tree = .ok next ∧ Placement.Arises game.rows next ∧
      ((∃ placement, next.candidate = some placement ∧ next.isFinal = false ∧
          game.stepOnce =
            ({ game.started.showing placement next.advances with pending := some next },
              [next.event])) ∨
        (∃ placement, next.candidate = some placement ∧ next.isFinal = true ∧
          game.stepOnce =
            (game.started.solvedIn placement next.advances,
              [next.event, .playbackFinished true next.advances])) ∨
        next.candidate = none ∧
          game.stepOnce =
            (game.started.unsolvedAfter next.advances,
              [next.event, .playbackFinished false next.advances])) := by
  rw [← rows_started game] at harises ⊢
  rw [stepOnce_eq]
  exact advance_cases harises hfinal

/-! ## Reports of failed advances -/

theorem event_ne_advanceFailed (walk : Walk Placement) (fault : Fault) :
    .advanceFailed fault ≠ walk.event := by
  obtain ⟨phase, advances⟩ := walk
  unfold Walk.event
  split <;> nofun

theorem advanceFailed_not_mem_advance (harises : Placement.Arises game.rows walk)
    (hfinal : walk.isFinal = false) (fault : Fault) :
    .advanceFailed fault ∉ (game.advance walk).2 := by
  obtain ⟨next, _, _, hcases⟩ := advance_cases harises hfinal
  have hevent := event_ne_advanceFailed next fault
  rcases hcases with ⟨_, _, _, heq⟩ | ⟨_, _, _, heq⟩ | ⟨_, heq⟩ <;>
    simp [heq, hevent]

theorem events_solve (game : Game) :
    game.solve.2 = (game.config.engine.solve game.rows).events := by
  unfold solve
  cases hqueens : (game.config.engine.solve game.rows).queens <;> simp only [hqueens]

theorem advanceFailed_not_mem_solve (game : Game) (fault : Fault) :
    .advanceFailed fault ∉ game.solve.2 := by
  have hsearch : .advanceFailed fault ∉ (Placement.empty game.rows).explore.events := by
    unfold Outcome.events
    split <;> simp
  have hevents : .advanceFailed fault ∉ (game.config.engine.solve game.rows).events := by
    cases game.config.engine with
    | astar =>
        change _ ∉ (Placement.empty game.rows).explore.events ++ [_]
        simp [hsearch]
    | backtracking =>
        change _ ∉ [] ++ [_]
        simp
  rw [events_solve]
  exact hevents

end QueensPuzzle.Console.Game
