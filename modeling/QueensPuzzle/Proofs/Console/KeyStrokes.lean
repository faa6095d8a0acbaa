import QueensPuzzle.Proofs.Board.Toggling
import QueensPuzzle.Proofs.Console.StatusLine
import QueensPuzzle.Proofs.Placement.FirstRow

/-! # Keys that go down and up

A key event counts whether the key goes down or up, so where a terminal reports both, every key
stroke acts twice. Some commands have nothing left to do the second time, and their strokes cannot
be told from presses. All others do their work again or undo it. Which of the two it is depends on
the command and on little of the game.
-/

namespace QueensPuzzle.BoardSize

theorem eq_iff {a b : BoardSize} : a = b ↔ a.rows = b.rows := by
  cases a
  cases b
  simp

theorem grow_grow_iff (size : BoardSize) :
    size.grow.grow = size.grow ↔ maxBoardSize ≤ size.rows + 1 := by
  rw [eq_iff]
  change min (min (size.rows + 1) maxBoardSize + 1) maxBoardSize =
    min (size.rows + 1) maxBoardSize ↔ _
  omega

theorem shrink_shrink_iff (size : BoardSize) :
    size.shrink.shrink = size.shrink ↔ size.rows ≤ 2 := by
  rw [eq_iff]
  change max (max (size.rows - 1) 1 - 1) 1 = max (size.rows - 1) 1 ↔ _
  omega

end QueensPuzzle.BoardSize

namespace QueensPuzzle.Console

open Search

/-- The same key going up. -/
def Key.release (key : Key) : Key := { key with released := true }

def presses (keys : List Key) : List Occurrence := keys.map .press

/-- Every key goes down and up again. -/
def strokes (keys : List Key) : List Occurrence :=
  keys.flatMap fun key => [.press key, .press key.release]

namespace Game

/-- Whether at most one more square lies before the cursor. -/
def NearEdge (game : Game) : Direction → Prop
  | .up => game.cursor.row ≤ 1
  | .down => game.rows ≤ game.cursor.row + 2
  | .left => game.cursor.column ≤ 1
  | .right => game.rows ≤ game.cursor.column + 2

/-- Whether the command, given twice, does what it does once. -/
def Settles (game : Game) : Command → Prop
  | .quit | .solve | .clear => True
  | .move direction => game.NearEdge direction
  | .toggleQueen => (game.occupancyAt game.cursor).1 = .blocked
  | .stepOnce => game.rows = 1
  | .grow => maxBoardSize ≤ game.rows + 1
  | .shrink => game.rows ≤ 2
  | .togglePlayback | .nextEngine | .nextTheme => False

/-- Whether the stroke of the key does what pressing it does. -/
def SettlesWith (game : Game) (key : Key) : Prop :=
  ∀ command, key.command? = some command → game.Settles command

variable {game : Game} {command : Command}

/-! ## Moves -/

theorem moved_moved_iff (h : Grounded game.rows game.cursor game.cells) (direction : Direction) :
    ({ game with cursor := game.moved direction } : Game).moved direction = game.moved direction ↔
      game.NearEdge direction := by
  have hrow := h.row_lt
  have hcolumn := h.column_lt
  cases direction with
  | up =>
      change (⟨game.cursor.row - 1 - 1, _⟩ : Square) = ⟨game.cursor.row - 1, _⟩ ↔
        game.cursor.row ≤ 1
      rw [Square.mk.injEq]
      omega
  | down =>
      change (⟨min (min (game.cursor.row + 1) (game.rows - 1) + 1) (game.rows - 1), _⟩ : Square) =
        ⟨min (game.cursor.row + 1) (game.rows - 1), _⟩ ↔ game.rows ≤ game.cursor.row + 2
      rw [Square.mk.injEq]
      omega
  | left =>
      change (⟨_, game.cursor.column - 1 - 1⟩ : Square) = ⟨_, game.cursor.column - 1⟩ ↔
        game.cursor.column ≤ 1
      rw [Square.mk.injEq]
      omega
  | right =>
      change (⟨_, min (min (game.cursor.column + 1) (game.rows - 1) + 1) (game.rows - 1)⟩ :
        Square) = ⟨_, min (game.cursor.column + 1) (game.rows - 1)⟩ ↔
          game.rows ≤ game.cursor.column + 2
      rw [Square.mk.injEq]
      omega

/-! ## Sizes -/

theorem resize_resize_iff (game : Game) (first second : BoardSize) :
    (game.resize first).resize second = game.resize first ↔ second = first := by
  constructor
  · intro h
    exact congrArg (·.config.boardSize) h
  · intro h
    rw [h]
    rfl

theorem status_togglePlayback (game : Game) :
    game.togglePlayback.status = if game.status = .searching then .paused else .searching := by
  unfold togglePlayback
  split
  · rfl
  · split
    · rfl
    · rfl

/-- The game once its engine has come to queens, or has found that there are none. -/
def answered (game : Game) : Option (List Square) → Game
  | some queens =>
      { game with
        position := .ofSquares queens game.rows
        status := .solved
        message := some (.solvedWith game.config.engine)
        pending := none }
  | none =>
      { game with
        position := .empty, status := .noSolution, message := some .noSolution, pending := none }

theorem solve_fst (game : Game) :
    game.solve.1 = game.answered (game.config.engine.solve game.rows).queens := by
  unfold solve
  cases hqueens : (game.config.engine.solve game.rows).queens with
  | some queens =>
      simp only [hqueens]
      rfl
  | none =>
      simp only [hqueens]
      rfl

theorem config_answered (game : Game) (queens : Option (List Square)) :
    (game.answered queens).config = game.config := by
  cases queens <;> rfl

theorem rows_answered (game : Game) (queens : Option (List Square)) :
    (game.answered queens).rows = game.rows := by
  rw [rows, config_answered]
  rfl

theorem answered_answered (game : Game) (queens : Option (List Square)) :
    (game.answered queens).answered queens = game.answered queens := by
  cases queens <;> rfl

theorem solve_solve (game : Game) : game.solve.1.solve.1 = game.solve.1 := by
  rw [solve_fst, solve_fst, rows_answered, config_answered]
  exact answered_answered game _

/-! ## Queens -/

/-- Whatever the key for a queen has to say, it toggles the cell. -/
theorem exists_toggleQueen_eq (h : game.cells.Serves game.rows) :
    ∃ status message, game.toggleQueen = { game.toggled with status, message } := by
  rw [toggleQueen_eq h]
  split
  · exact ⟨_, _, rfl⟩
  · split
    · exact ⟨_, _, rfl⟩
    · exact ⟨_, _, rfl⟩

theorem Sound.apart (h : game.Sound) : game.position.Apart := by
  obtain ⟨squares, hposition, hpeace⟩ := h.peaceful
  rw [hposition]
  exact Position.apart_ofSquares game.rows_lt_word hpeace

theorem toggleQueen_toggleQueen_iff (h : game.Sound) :
    game.toggleQueen.toggleQueen = game.toggleQueen ↔
      (game.occupancyAt game.cursor).1 = .blocked := by
  have hcells := h.grounded.cells
  have hserves : game.toggleQueen.cells.Serves game.toggleQueen.rows := by
    obtain ⟨_, _, hnext⟩ := exists_toggleQueen_eq hcells
    rw [hnext]
    exact hcells.get_snd _ _
  rw [occupancyAt_fst hcells]
  constructor
  · intro hsame
    apply h.apart.toggle_toggle_eq_iff.mp
    obtain ⟨_, _, hnext⟩ := exists_toggleQueen_eq hcells
    obtain ⟨_, _, hagain⟩ := exists_toggleQueen_eq hserves
    have hposition := congrArg position hsame
    rw [hagain, hnext] at hposition
    exact hposition
  · intro hblocked
    have hnext : game.toggleQueen = { game.toggled with message := some .squareAttacked } := by
      rw [toggleQueen_eq hcells, if_pos hblocked]
    have hposition := h.apart.toggle_toggle_eq_iff.mpr hblocked
    have hagain : game.toggleQueen.position.occupancy (.of game.toggleQueen.cursor.row
        game.toggleQueen.cursor.column game.toggleQueen.rows) = .blocked := by
      rw [hnext]
      change (game.position.toggle _).2.occupancy _ = _
      rw [Position.toggle_of_blocked hblocked]
      exact hblocked
    rw [toggleQueen_eq hserves, if_pos hagain, hnext]
    have hrows : game.toggled.rows = game.rows := rfl
    simp only [toggled, rows, CellCache.get_get_snd] at hposition ⊢
    rw [hposition]

/-! ## Steps -/

theorem solvedIn_started (placement : Placement) (steps : Nat) (game : Game) :
    game.started.solvedIn placement steps = game.solvedIn placement steps := by
  unfold started
  split
  · rfl
  · rw [startSearch_eq]
    rfl

/-- A step takes one advance, and leaves a search behind unless that comes to the end. -/
theorem exists_advance_stepOnce (harises : Placement.Arises game.rows game.nextWalk)
    (hfinal : game.nextWalk.isFinal = false) :
    ∃ next, game.nextWalk.advance Placement.tree = .ok next ∧ game.stepOnce.1.rows = game.rows ∧
      game.stepOnce.1.steps = game.nextWalk.advances + 1 ∧
      (game.stepOnce.1.pending = none ↔ next.isFinal = true) := by
  obtain ⟨next, hadvance, hnext, hcases⟩ := stepOnce_cases harises hfinal
  refine ⟨next, hadvance, ?_⟩
  rw [← Walk.advances_of_advance hadvance]
  rcases hcases with ⟨_, _, hgoes, heq⟩ | ⟨_, _, hover, heq⟩ | ⟨hnone, heq⟩
  · rw [heq, hgoes]
    exact ⟨rows_started game, rfl, by simp⟩
  · rw [heq, hover]
    exact ⟨rows_started game, rfl, iff_of_true rfl rfl⟩
  · rw [heq, hnext.isFinal_eq, hnone]
    exact ⟨rows_started game, rfl, iff_of_true rfl rfl⟩

/-- On one row a search that is pending has taken no step yet. -/
theorem Sound.nextWalk_of_one_row (h : game.Sound) (hrows : game.rows = 1) :
    game.nextWalk = (Placement.empty game.rows).walk := by
  obtain ⟨⟨count, hcount⟩, hfinal⟩ := h.nextWalk
  have hends := (Placement.endsAfter_one_iff game.one_le_rows).mpr hrows
  have hle := hends.le hcount
  have hne := mt (hends.isFinal_iff hcount).mpr (by simp [hfinal])
  obtain rfl : count = 0 := by omega
  rw [SearchTree.walkAfter_zero] at hcount
  exact (Except.ok.inj hcount).symm

theorem Sound.stepOnce_of_one_row (h : game.Sound) (hrows : game.rows = 1) :
    ({ game with status := .paused } : Game).stepOnce.1 =
      game.solvedIn ((Placement.empty game.rows).place ⟨0, 0⟩) 1 := by
  obtain ⟨next, hadvance, hcandidate⟩ := Placement.exists_advance_empty game.one_le_rows
  have hafter : Placement.tree.walkAfter (.empty game.rows) 1 = .ok next :=
    SearchTree.walkAfter_succ_eq_ok_iff.mpr ⟨_, SearchTree.walkAfter_zero, hadvance⟩
  have hends := (Placement.endsAfter_one_iff game.one_le_rows).mpr hrows
  have hover := (hends.isFinal_iff hafter).mpr rfl
  have hfinal := Placement.isFinal_walk game.one_le_rows
  have hwalk : ({ game with status := .paused } : Game).nextWalk = _ := h.nextWalk_of_one_row hrows
  rw [stepOnce_eq, hwalk, advance_of_solution hfinal hadvance hover hcandidate, solvedIn_started,
    SearchTree.advances_walkAfter hafter]
  rfl

theorem stepOnce_stepOnce_iff (h : game.Sound) :
    let next := ({ game with status := .paused } : Game).stepOnce.1
    ({ next with status := .paused } : Game).stepOnce.1 = next ↔ game.rows = 1 := by
  intro next
  have hnext : next.Sound := h.stepOnce
  obtain ⟨_, _, hrows, hsteps, _⟩ :=
    @exists_advance_stepOnce { game with status := .paused } h.nextWalk.1 h.nextWalk.2
  change next.rows = game.rows at hrows
  change next.steps = _ at hsteps
  constructor
  · intro hsame
    obtain ⟨last, hadvance, _, hagain, hpending⟩ :=
      @exists_advance_stepOnce { next with status := .paused } hnext.nextWalk.1 hnext.nextWalk.2
    change next.nextWalk.advance Placement.tree = .ok last at hadvance
    change _ = next.nextWalk.advances + 1 at hagain
    rw [hsame] at hagain hpending
    cases hsearch : next.pending with
    | some walk =>
        -- The second step would have counted.
        have hshown := (hnext.shows_of_pending hsearch).steps_eq
        have hwalk : next.nextWalk = walk := by simp [nextWalk, hsearch]
        rw [hwalk] at hagain
        omega
    | none =>
        -- The second step began a search anew, which was over with it.
        have hwalk : next.nextWalk = (Placement.empty next.rows).walk := by
          simp [nextWalk, hsearch]
        rw [hwalk] at hadvance
        have hafter : Placement.tree.walkAfter (.empty next.rows) 1 = .ok last :=
          SearchTree.walkAfter_succ_eq_ok_iff.mpr ⟨_, SearchTree.walkAfter_zero, hadvance⟩
        rw [← hrows]
        exact (Placement.endsAfter_one_iff next.one_le_rows).mp
          ⟨last, hafter, hpending.mp hsearch⟩
  · intro hone
    have hstep : next = game.solvedIn ((Placement.empty game.rows).place ⟨0, 0⟩) 1 :=
      h.stepOnce_of_one_row hone
    rw [hnext.stepOnce_of_one_row (hrows.trans hone), hrows, hstep]
    rfl

/-- Which commands have nothing left to do the second time. -/
theorem perform_perform_iff (h : game.Sound) (command : Command) :
    ((game.perform command).game.perform command).game = (game.perform command).game ↔
      game.Settles command := by
  cases command with
  | quit => exact iff_of_true rfl trivial
  | clear => exact iff_of_true rfl trivial
  | solve => exact iff_of_true game.solve_solve trivial
  | move direction =>
      rw [Settles, ← moved_moved_iff h.grounded direction]
      constructor
      · intro hsame
        exact congrArg Game.cursor hsame
      · intro hsame
        exact congrArg (fun cursor => { game with cursor }) hsame
  | toggleQueen => exact toggleQueen_toggleQueen_iff h
  | stepOnce => exact stepOnce_stepOnce_iff h
  | grow =>
      rw [Settles, rows, ← BoardSize.grow_grow_iff]
      exact resize_resize_iff game _ _
  | shrink =>
      rw [Settles, rows, ← BoardSize.shrink_shrink_iff]
      exact resize_resize_iff game _ _
  | togglePlayback =>
      refine iff_of_false ?_ id
      intro hsame
      have hstatus : game.togglePlayback.togglePlayback.status = game.togglePlayback.status :=
        congrArg Game.status hsame
      rw [status_togglePlayback] at hstatus
      split at hstatus
      · rename_i hsearching
        rw [hsearching] at hstatus
        cases hstatus
      · rename_i hsearching
        exact hsearching hstatus.symm
  | nextEngine =>
      refine iff_of_false ?_ id
      intro hsame
      have hengine : game.config.engine.next.next = game.config.engine.next :=
        congrArg (·.config.engine) hsame
      cases hfirst : game.config.engine <;> simp [hfirst, Engine.next] at hengine
  | nextTheme =>
      refine iff_of_false ?_ id
      intro hsame
      have htheme : game.theme.next.next = game.theme.next := congrArg Game.theme hsame
      cases hfirst : game.theme <;> simp [hfirst, ThemeName.next] at htheme

/-! ## Strokes -/

theorem press_release (game : Game) (key : Key) : game.press key.release = game.press key := rfl

/-- What is answered to a key depends on the key alone. -/
theorem quits_press (game : Game) (key : Key) :
    (game.press key).quits = (key.command? == some .quit) := by
  unfold press
  cases hcommand : key.command? with
  | none => rfl
  | some command => cases command <;> rfl

theorem stroke_eq_press_iff (h : Reachable game) (key : Key) :
    (game.receive (.press key)).receive (.press key.release) = game.receive (.press key) ↔
      game.SettlesWith key := by
  change ((game.press key).game.press key.release).game = (game.press key).game ↔ _
  rw [press_release]
  unfold press SettlesWith
  cases hcommand : key.command? with
  | none => exact iff_of_true rfl nofun
  | some command =>
      rw [perform_perform_iff h.sound]
      constructor
      · intro hsettles other hother
        obtain rfl := Option.some.inj hother
        exact hsettles
      · intro hsettles
        exact hsettles command rfl

theorem play_presses_concat (game : Game) (before : List Key) (key : Key) :
    game.play (presses (before ++ [key])) = (game.play (presses before)).receive (.press key) := by
  rw [presses, List.map_append, List.map_singleton, play_concat]
  rfl

theorem play_strokes_concat (game : Game) (before : List Key) (key : Key) :
    game.play (strokes (before ++ [key])) =
      ((game.play (strokes before)).receive (.press key)).receive (.press key.release) := by
  simp [strokes, play]

/-- Strokes and presses lead to the same games as long as every key settles with its press. -/
theorem strokes_eq_presses_iff (h : Reachable game) (keys : List Key) :
    (∀ before, before <+: keys → game.play (strokes before) = game.play (presses before)) ↔
      ∀ before key, before ++ [key] <+: keys → (game.play (presses before)).SettlesWith key := by
  constructor
  · intro hsame before key hprefix
    have hbefore := hsame before ((List.prefix_append before [key]).trans hprefix)
    have hafter := hsame (before ++ [key]) hprefix
    rw [play_strokes_concat, play_presses_concat, hbefore] at hafter
    exact (stroke_eq_press_iff (h.play _) key).mp hafter
  · intro hsettles before hprefix
    induction before using List.reverseRecOn with
    | nil => rfl
    | append_singleton before key ih =>
        have hbefore := ih ((List.prefix_append before [key]).trans hprefix)
        rw [play_strokes_concat, play_presses_concat, hbefore]
        exact (stroke_eq_press_iff (h.play _) key).mpr (hsettles before key hprefix)

/-- A key that goes up does what it did when it went down, and is answered in the same way. So
strokes and presses lead to the same games up to the first key that does not settle: one for a
queen on a cell that is not attacked, for playing, a step, the engine or the theme, or one for a
move or another size that has room for a second. Quitting, solving and clearing always settle, and
so does a step on a board with one row. -/
theorem strokes_act_once_iff (config : Config) (theme : ThemeName) (delay : Nat)
    (happened : List Occurrence) (keys : List Key) :
    let game := (new config theme delay).play happened
    (∀ (other : Game) (key : Key), other.press key.release = other.press key ∧
      (other.press key).quits = (key.command? == some .quit)) ∧
    ((∀ before, before <+: keys → game.play (strokes before) = game.play (presses before)) ↔
      ∀ before key, before ++ [key] <+: keys → (game.play (presses before)).SettlesWith key) := by
  intro game
  have hfirst : Reachable (new config theme delay) := .new config theme delay
  exact ⟨fun other key => ⟨press_release other key, quits_press other key⟩,
    strokes_eq_presses_iff (hfirst.play happened) keys⟩

/-- On four rows the queen that is put when the key goes down is taken off when it goes up. -/
theorem queen_lifted_on_release :
    let game := new ⟨.backtracking, { rows := 4 }⟩ default defaultDelay
    Reachable game ∧
      (game.play (presses [{ code := .enter }])).position = .ofSquares [⟨0, 0⟩] 4 ∧
      (game.play (strokes [{ code := .enter }])).position = .empty :=
  ⟨.new _ _ _, by cbv, by cbv⟩

end Game

end QueensPuzzle.Console
