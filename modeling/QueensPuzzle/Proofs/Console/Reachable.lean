import Mathlib.Data.List.Permutation
import QueensPuzzle.Console.Frame
import QueensPuzzle.Proofs.Board.Occupancy
import QueensPuzzle.Proofs.Console.Playback

/-! # What holds of every game

Whatever keys are pressed and whenever the timer ticks, the cursor stays on the board, the queens
leave each other in peace, and the status tells what there is: a search that can go on, a full
board, or an empty one that nothing can fill. So no step meets a search that is over, and none
fails.
-/

namespace QueensPuzzle.Console.Game

open Search

/-- The games that come up: a new one, and what becomes of it by keys, by ticks, and when it is
looked at. -/
inductive Reachable : Game → Prop
  | new (config : Config) (theme : ThemeName) (delay : Nat) : Reachable (.new config theme delay)
  | press {game : Game} (h : Reachable game) (key : Key) : Reachable (game.press key).game
  | tick {game : Game} (h : Reachable game) : Reachable game.tick.1
  | occupancyAt {game : Game} (h : Reachable game) (square : Square) :
      Reachable (game.occupancyAt square).2
  | frame {game : Game} (h : Reachable game) (width height : Nat) :
      Reachable (game.frame width height).2

/-- The cursor and the cells at hand are those of a board of the game's size. -/
structure Grounded (rows : Nat) (cursor : Square) (cells : CellCache) : Prop where
  row_lt : cursor.row < rows
  column_lt : cursor.column < rows
  cells : cells.Serves rows

/-- The walk is one from the empty board, not at its end, and it is what the board shows. -/
structure Shows (rows steps : Nat) (position : Position) (walk : Walk Placement) : Prop where
  arises : Placement.Arises rows walk
  isFinal_eq : walk.isFinal = false
  shown : ∃ placement, walk.candidate = some placement ∧
    position = .ofSquares placement.queens rows
  steps_eq : steps = walk.advances

def IsPeaceful (rows : Nat) (position : Position) : Prop :=
  ∃ squares, position = .ofSquares squares rows ∧ Peaceful rows squares

/-- What the status says of the search and of the board. -/
def StatusHolds (rows steps : Nat) (position : Position) (pending : Option (Walk Placement)) :
    Status → Prop
  | .editing => pending = none
  | .searching | .paused => ∃ walk, pending = some walk ∧ Shows rows steps position walk
  | .solved => pending = none ∧ position.queenCount = rows
  | .noSolution => pending = none ∧ position = .empty ∧ ¬Solvable rows

structure Sound (game : Game) : Prop where
  grounded : Grounded game.rows game.cursor game.cells
  peaceful : IsPeaceful game.rows game.position
  status : StatusHolds game.rows game.steps game.position game.pending game.status

variable {game : Game} {walk : Walk Placement}

theorem one_le_rows (game : Game) : 1 ≤ game.rows := game.config.boardSize.one_le_rows

theorem rows_lt_word (game : Game) : game.rows < UInt64.size / 2 := by
  have hmax : maxBoardSize < UInt64.size / 2 := by decide
  exact Nat.lt_of_le_of_lt game.config.boardSize.rows_le_max hmax

theorem isPeaceful_empty (rows : Nat) : IsPeaceful rows .empty := ⟨[], rfl, Peaceful.nil rows⟩

theorem StatusHolds.pending_cases {rows steps : Nat} {position : Position}
    {pending : Option (Walk Placement)} {status : Status}
    (h : StatusHolds rows steps position pending status) :
    (pending = none ∧ status ≠ .searching ∧ status ≠ .paused) ∨
      ∃ walk, pending = some walk ∧ Shows rows steps position walk ∧
        (status = .searching ∨ status = .paused) := by
  cases status with
  | editing => exact .inl ⟨h, by decide, by decide⟩
  | searching =>
      obtain ⟨walk, hpending, hshows⟩ := h
      exact .inr ⟨walk, hpending, hshows, .inl rfl⟩
  | paused =>
      obtain ⟨walk, hpending, hshows⟩ := h
      exact .inr ⟨walk, hpending, hshows, .inr rfl⟩
  | solved => exact .inl ⟨h.1, by decide, by decide⟩
  | noSolution => exact .inl ⟨h.1, by decide, by decide⟩

namespace Sound

theorem shows_of_pending (h : game.Sound) (hpending : game.pending = some walk) :
    Shows game.rows game.steps game.position walk := by
  rcases h.status.pending_cases with ⟨hnone, _⟩ | ⟨other, hother, hshows, _⟩
  · rw [hnone] at hpending
    cases hpending
  · rw [hother] at hpending
    cases hpending
    exact hshows

theorem pending_isSome_iff (h : game.Sound) :
    game.pending.isSome = true ↔ game.status = .searching ∨ game.status = .paused := by
  rcases h.status.pending_cases with ⟨hnone, hsearching, hpaused⟩ | ⟨walk, hwalk, _, hstatus⟩
  · simp [hnone, hsearching, hpaused]
  · simp [hwalk, hstatus]

theorem queenCount_of_solved (h : game.Sound) (hsolved : game.status = .solved) :
    game.position.queenCount = game.rows := by
  have hstatus := h.status
  rw [hsolved] at hstatus
  exact hstatus.2

theorem not_solvable_of_noSolution (h : game.Sound) (hnone : game.status = .noSolution) :
    game.position = .empty ∧ ¬Solvable game.rows := by
  have hstatus := h.status
  rw [hnone] at hstatus
  exact hstatus.2

theorem queens_nodup (h : game.Sound) : game.position.queens.Nodup := by
  obtain ⟨squares, hposition, hpeace⟩ := h.peaceful
  rw [hposition]
  exact Position.nodup_ofSquares hpeace.nodup

end Sound

/-! ## Editing -/

theorem sound_new (config : Config) (theme : ThemeName) (delay : Nat) :
    (Game.new config theme delay).Sound where
  grounded := ⟨config.boardSize.one_le_rows, config.boardSize.one_le_rows, CellCache.serves_new _⟩
  peaceful := isPeaceful_empty _
  status := rfl

theorem moved_lt (h : Grounded game.rows game.cursor game.cells) (direction : Direction) :
    (game.moved direction).row < game.rows ∧ (game.moved direction).column < game.rows := by
  have hrows := game.one_le_rows
  have hrow := h.row_lt
  have hcolumn := h.column_lt
  cases direction with
  | up =>
      refine ⟨?_, hcolumn⟩
      show game.cursor.row - 1 < game.rows
      omega
  | down =>
      refine ⟨?_, hcolumn⟩
      show min (game.cursor.row + 1) (game.rows - 1) < game.rows
      omega
  | left =>
      refine ⟨hrow, ?_⟩
      show game.cursor.column - 1 < game.rows
      omega
  | right =>
      refine ⟨hrow, ?_⟩
      show min (game.cursor.column + 1) (game.rows - 1) < game.rows
      omega

/-- The game in which the cell under the cursor has just been toggled. -/
def toggled (game : Game) : Game :=
  { game with
    cells := (CellCache.get game.cursor.row game.cursor.column game.cells).2
    position := (game.position.toggle (.of game.cursor.row game.cursor.column game.rows)).2
    pending := none
    status := .editing }

theorem toggleQueen_eq (h : game.cells.Serves game.rows) :
    game.toggleQueen =
      if game.position.occupancy (.of game.cursor.row game.cursor.column game.rows) = .blocked then
        { game.toggled with message := some .squareAttacked }
      else if game.toggled.position.queenCount = game.rows then
        { game.toggled with status := .solved, message := some .solvedByHand }
      else game.toggled := by
  unfold toggleQueen toggled
  rw [← h.get_fst]
  rfl

/-- Nothing is known of a game that is made smaller or larger, and nothing has to be. -/
theorem sound_resize (size : BoardSize) (game : Game) : (game.resize size).Sound where
  grounded := ⟨size.one_le_rows, size.one_le_rows, CellCache.serves_new _⟩
  peaceful := isPeaceful_empty _
  status := rfl

theorem shows_walk (game : Game) :
    Shows game.rows 0 .empty (Placement.empty game.rows).walk where
  arises := Placement.arises_walk game.rows
  isFinal_eq := Placement.isFinal_walk game.one_le_rows
  shown := ⟨Placement.empty game.rows, Placement.candidate_walk game.rows, rfl⟩
  steps_eq := rfl

namespace Sound

/-- The cells at hand do not matter for what is on the board. -/
theorem with_cells (h : game.Sound) {cells : CellCache} (hcells : cells.Serves game.rows) :
    { game with cells }.Sound where
  grounded := ⟨h.grounded.row_lt, h.grounded.column_lt, hcells⟩
  peaceful := h.peaceful
  status := h.status

theorem move (h : game.Sound) (direction : Direction) :
    { game with cursor := game.moved direction }.Sound where
  grounded :=
    have hmoved := moved_lt h.grounded direction
    ⟨hmoved.1, hmoved.2, h.grounded.cells⟩
  peaceful := h.peaceful
  status := h.status

theorem clear (h : game.Sound) : game.clear.Sound := ⟨h.grounded, isPeaceful_empty _, rfl⟩

theorem peaceful_toggled (h : game.Sound) : IsPeaceful game.rows game.toggled.position := by
  obtain ⟨squares, hposition, hpeace⟩ := h.peaceful
  have hcursor := And.intro h.grounded.row_lt h.grounded.column_lt
  unfold toggled
  rw [hposition, Position.toggle_ofSquares]
  exact ⟨_, rfl, Position.peaceful_toggled game.rows_lt_word hpeace hcursor⟩

theorem toggleQueen (h : game.Sound) : game.toggleQueen.Sound := by
  have hgrounded : Grounded game.rows game.cursor game.toggled.cells :=
    ⟨h.grounded.row_lt, h.grounded.column_lt, h.grounded.cells.get_snd _ _⟩
  rw [toggleQueen_eq h.grounded.cells]
  split
  · exact ⟨hgrounded, h.peaceful_toggled, rfl⟩
  · split
    · rename_i hcount
      exact ⟨hgrounded, h.peaceful_toggled, rfl, hcount⟩
    · exact ⟨hgrounded, h.peaceful_toggled, rfl⟩

theorem solve (h : game.Sound) : game.solve.1.Sound := by
  unfold Game.solve
  cases hqueens : (game.config.engine.solve game.rows).queens with
  | some queens =>
      obtain ⟨hlength, hpeace⟩ := Placement.peaceful_of_solve hqueens
      have hcount := (Position.queenCount_ofSquares queens game.rows).trans hlength
      simp only [hqueens]
      exact ⟨h.grounded, ⟨queens, rfl, hpeace⟩, rfl, hcount⟩
  | none =>
      have hnone := (Placement.solve_queens_eq_none_iff _ _).mp hqueens
      simp only [hqueens]
      exact ⟨h.grounded, isPeaceful_empty _, rfl, rfl, hnone⟩

/-! ### Playing a search -/

theorem togglePlayback (h : game.Sound) : game.togglePlayback.Sound := by
  -- Playing and standing still say the same of the search, so `hstatus` serves for either.
  have hstatus := h.status
  unfold Game.togglePlayback
  split
  · rename_i hsearching
    rw [hsearching] at hstatus
    exact ⟨h.grounded, h.peaceful, hstatus⟩
  · split
    · rename_i hpaused
      rw [hpaused.1] at hstatus
      exact ⟨h.grounded, h.peaceful, hstatus⟩
    · rw [startSearch_eq]
      exact ⟨h.grounded, isPeaceful_empty _, _, rfl, game.shows_walk⟩

/-- A step may always go on: the walk that it moves is not at its end. -/
theorem nextWalk (h : game.Sound) :
    Placement.Arises game.rows game.nextWalk ∧ game.nextWalk.isFinal = false := by
  unfold Game.nextWalk
  rcases h.status.pending_cases with ⟨hnone, _⟩ | ⟨walk, hwalk, hshows, _⟩
  · rw [hnone]
    exact ⟨game.shows_walk.arises, game.shows_walk.isFinal_eq⟩
  · rw [hwalk]
    exact ⟨hshows.arises, hshows.isFinal_eq⟩

end Sound

theorem statusHolds_of_shows {rows steps : Nat} {position : Position} {status : Status}
    (hstatus : status = .searching ∨ status = .paused)
    (hshows : Shows rows steps position walk) :
    StatusHolds rows steps position (some walk) status := by
  rcases hstatus with rfl | rfl
  · exact ⟨walk, rfl, hshows⟩
  · exact ⟨walk, rfl, hshows⟩

theorem sound_advance (hgrounded : Grounded game.rows game.cursor game.cells)
    (hstatus : game.status = .searching ∨ game.status = .paused)
    (harises : Placement.Arises game.rows walk) (hfinal : walk.isFinal = false) :
    (game.advance walk).1.Sound := by
  obtain ⟨next, _, hnext, hcases⟩ := advance_cases harises hfinal
  rcases hcases with ⟨placement, hcandidate, hend, heq⟩ | ⟨placement, hcandidate, hend, heq⟩ |
    ⟨hcandidate, heq⟩
  · have hpeace := (hnext.legal hcandidate).peaceful
    rw [heq]
    exact ⟨hgrounded, ⟨placement.queens, rfl, hpeace⟩,
      statusHolds_of_shows hstatus ⟨hnext, hend, ⟨placement, hcandidate, rfl⟩, rfl⟩⟩
  · have hpeace := (hnext.legal hcandidate).peaceful
    have hcount := (Position.queenCount_ofSquares placement.queens game.rows).trans
      (hnext.length_eq hend hcandidate)
    rw [heq]
    exact ⟨hgrounded, ⟨placement.queens, rfl, hpeace⟩, rfl, hcount⟩
  · rw [heq]
    exact ⟨hgrounded, isPeaceful_empty _, rfl, rfl, hnext.not_solvable hcandidate⟩

/-- The status is set before the step, so the game need not be sound as it is. -/
theorem sound_stepOnce (hgrounded : Grounded game.rows game.cursor game.cells)
    (hstatus : game.status = .searching ∨ game.status = .paused)
    (harises : Placement.Arises game.rows game.nextWalk) (hfinal : game.nextWalk.isFinal = false) :
    game.stepOnce.1.Sound := by
  rw [stepOnce_eq]
  unfold started
  split
  · exact sound_advance hgrounded hstatus harises hfinal
  · rw [startSearch_eq]
    exact sound_advance hgrounded hstatus harises hfinal

namespace Sound

theorem stepOnce (h : game.Sound) : ({ game with status := .paused }).stepOnce.1.Sound :=
  sound_stepOnce h.grounded (.inr rfl) h.nextWalk.1 h.nextWalk.2

theorem tick (h : game.Sound) : game.tick.1.Sound := by
  unfold Game.tick
  split
  · rename_i hplaying
    exact sound_stepOnce h.grounded (.inl (eq_of_beq hplaying)) h.nextWalk.1 h.nextWalk.2
  · exact h

theorem perform (h : game.Sound) (command : Command) : (game.perform command).game.Sound := by
  cases command with
  | quit => exact h
  | move direction => exact h.move direction
  | toggleQueen => exact h.toggleQueen
  | solve => exact h.solve
  | togglePlayback => exact h.togglePlayback
  | stepOnce => exact h.stepOnce
  | nextEngine => exact ⟨h.grounded, h.peaceful, h.status⟩
  | grow => exact sound_resize _ game
  | shrink => exact sound_resize _ game
  | clear => exact h.clear
  | nextTheme => exact ⟨h.grounded, h.peaceful, h.status⟩

theorem press (h : game.Sound) (key : Key) : (game.press key).game.Sound := by
  unfold Game.press
  cases key.command? with
  | none => exact h
  | some command => exact h.perform command

end Sound

theorem Reachable.sound (h : Reachable game) : game.Sound := by
  induction h with
  | new config theme delay => exact sound_new config theme delay
  | press _ key ih => exact ih.press key
  | tick _ ih => exact ih.tick
  | occupancyAt _ square ih =>
      exact ih.with_cells (ih.grounded.cells.get_snd square.row square.column)
  | @frame game _ _ _ ih => exact ih.with_cells (ih.grounded.cells.describe game.position)

/-! ## Reports of failed advances -/

namespace Sound

theorem advanceFailed_not_mem_stepOnce (h : game.Sound) (status : Status) (fault : Fault) :
    .advanceFailed fault ∉ ({ game with status }).stepOnce.2 := by
  rw [stepOnce_eq]
  unfold started
  split
  · apply advanceFailed_not_mem_advance
    · exact h.nextWalk.1
    · exact h.nextWalk.2
  · rw [startSearch_eq]
    apply advanceFailed_not_mem_advance
    · exact h.nextWalk.1
    · exact h.nextWalk.2

theorem advanceFailed_not_mem_tick (h : game.Sound) (fault : Fault) :
    .advanceFailed fault ∉ game.tick.2 := by
  unfold Game.tick
  split
  · exact h.advanceFailed_not_mem_stepOnce game.status fault
  · nofun

theorem advanceFailed_not_mem_press (h : game.Sound) (key : Key) (fault : Fault) :
    .advanceFailed fault ∉ (game.press key).events := by
  unfold Game.press
  split
  · rename_i command _
    cases command with
    | solve => exact game.advanceFailed_not_mem_solve fault
    | stepOnce => exact h.advanceFailed_not_mem_stepOnce .paused fault
    | _ => nofun
  · nofun

end Sound

/-- In every game that comes up the cursor is on the board, the cells are those of the board, and
the queens on it leave each other in peace. A search is pending exactly while it is played or
stands still; it is not over and it is what the board shows. A solved board is full, and where
no solution was found there is none. Hence a step finds a walk that is not over and advances it,
and no advance is ever reported as failed. -/
theorem reachable_wellFormed (h : Reachable game) :
    (game.cursor.row < game.rows ∧ game.cursor.column < game.rows ∧
      game.cells.size = game.rows) ∧
    (∃ squares : List Square,
      game.position.queens = squares.map (fun s => Cell.of s.row s.column game.rows) ∧
        game.position.queens.Nodup ∧ Peaceful game.rows squares) ∧
    ((game.pending.isSome = true ↔ game.status = .searching ∨ game.status = .paused) ∧
      ∀ walk, game.pending = some walk →
        walk.isFinal = false ∧ game.steps = walk.advances ∧
          ∃ placement, walk.candidate = some placement ∧
            game.position = .ofSquares placement.queens game.rows) ∧
    ((game.status = .solved → game.position.queenCount = game.rows) ∧
      (game.status = .noSolution → game.position = .empty ∧
        ¬∃ queens : List Square, queens.length = game.rows ∧ Peaceful game.rows queens)) ∧
    (game.nextWalk.isFinal = false ∧
      (∃ next, game.nextWalk.advance Placement.tree = .ok next) ∧
      ∀ status, ({ game with status }).stepOnce =
        ({ game with status }).started.advance game.nextWalk) ∧
    ∀ fault, (∀ key, .advanceFailed fault ∉ (game.press key).events) ∧
      .advanceFailed fault ∉ game.tick.2 := by
  have hsound := h.sound
  obtain ⟨squares, hposition, hpeace⟩ := hsound.peaceful
  have hqueens := congrArg Position.queens hposition
  have hadvance := (SearchTree.exists_advance_iff Placement.tree game.nextWalk).mpr
    hsound.nextWalk.2
  refine ⟨⟨hsound.grounded.row_lt, hsound.grounded.column_lt, hsound.grounded.cells.size_eq⟩,
    ⟨squares, hqueens, hsound.queens_nodup, hpeace⟩, ⟨hsound.pending_isSome_iff, ?_⟩,
    ⟨hsound.queenCount_of_solved, hsound.not_solvable_of_noSolution⟩,
    ⟨hsound.nextWalk.2, hadvance, fun status => stepOnce_eq _⟩, ?_⟩
  · intro walk hwalk
    have hshows := hsound.shows_of_pending hwalk
    exact ⟨hshows.isFinal_eq, hshows.steps_eq, hshows.shown⟩
  · intro fault
    exact ⟨fun key => hsound.advanceFailed_not_mem_press key fault,
      hsound.advanceFailed_not_mem_tick fault⟩

/-- A game on two rows in which the key for a step was pressed so many times. -/
def stepped : Nat → Game
  | 0 => .new ⟨.backtracking, { rows := 2 }⟩ default defaultDelay
  | count + 1 => ((stepped count).press { code := .character 'n' }).game

theorem reachable_stepped (count : Nat) : Reachable (stepped count) := by
  induction count with
  | zero => exact .new _ _ _
  | succ count ih => exact ih.press _

/-- With the second step the search stands still at a queen that leaves no room for another,
and the third finds that there is nothing left. -/
theorem stepped_wellFormed :
    (∃ walk, (stepped 2).pending = some walk ∧ walk.isFinal = false ∧ walk.advances = 2) ∧
      (stepped 3).position = .empty ∧
      ¬∃ queens : List Square, queens.length = 2 ∧ Peaceful 2 queens := by
  obtain ⟨_, _, ⟨hpending, hshown⟩, _⟩ := reachable_wellFormed (reachable_stepped 2)
  obtain ⟨_, _, _, ⟨_, hnone⟩, _⟩ := reachable_wellFormed (reachable_stepped 3)
  have hpaused : (stepped 2).status = .paused := by cbv
  have hsteps : (stepped 2).steps = 2 := by cbv
  have hstatus : (stepped 3).status = .noSolution := by cbv
  have hrows : (stepped 3).rows = 2 := by cbv
  obtain ⟨walk, hwalk⟩ := Option.isSome_iff_exists.mp (hpending.mpr (.inr hpaused))
  obtain ⟨hfinal, hadvances, _⟩ := hshown walk hwalk
  rw [hrows] at hnone
  exact ⟨⟨walk, hwalk, hfinal, hadvances.symm.trans hsteps⟩, hnone hstatus⟩

end QueensPuzzle.Console.Game
