import QueensPuzzle.Proofs.Console.Schedule

/-! # Status and message

Status, message and board are kept apart, and not every key sets all three. Where the status is
not that of editing, it tells of a full board, and a message that announces how it went is right.
What an occurrence does to them is summed up in three places: the key for a queen, which is the
only one that may spoil this, keys that leave the board alone, and all others.
-/

namespace QueensPuzzle.Console

open Search

/-- Whether the message says that the board is solved. -/
def Message.tellsSolved : Message → Bool
  | .solvedByHand | .solvedWith _ | .solvedIn _ => true
  | _ => false

/-- Whether the message says that the board has no solution. -/
def Message.tellsUnsolvable : Message → Bool
  | .noSolution | .noSolutionAfter _ => true
  | _ => false

/-- A message that tells of steps tells their number, and no message tells of a failure. -/
def Message.Counts (rows steps : Nat) : Message → Prop
  | .solvedIn count => count = steps
  | .noSolutionAfter count => count = (Placement.empty rows).expansions ∧ ¬Solvable rows
  | .failed _ => False
  | _ => True

namespace Occurrence

/-- What the program is asked for by a key. -/
def command? : Occurrence → Option Command
  | .press key => key.command?
  | _ => none

/-- Whether it is asked for nothing that concerns the message, the board or a search. -/
def isSilent (occurrence : Occurrence) : Bool :=
  match occurrence.command? with
  | none | some .quit | some (.move _) | some .nextTheme => true
  | some _ => false

/-- Whether it is asked for nothing that concerns the board or a search. -/
def isIdle (occurrence : Occurrence) : Bool :=
  occurrence.isSilent || occurrence.command? == some .nextEngine

end Occurrence

namespace Game

/-- The board holds a queen for each row, and none of them attacks another. -/
def ShowsSolution (game : Game) : Prop :=
  ∃ squares : List Square, game.position = .ofSquares squares game.rows ∧
    squares.length = game.rows ∧ Peaceful game.rows squares

/-- A message that tells how it went is there only while it is so. -/
structure Truthful (game : Game) : Prop where
  solved : ∀ message, game.message = some message → message.tellsSolved = true →
    game.status = .solved ∧ game.ShowsSolution
  unsolvable : ∀ message, game.message = some message → message.tellsUnsolvable = true →
    game.status = .noSolution ∧ game.position = .empty

/-- There is a message that tells how it went. -/
def Announces (game : Game) : Prop :=
  ∃ message, game.message = some message ∧ (message.tellsSolved || message.tellsUnsolvable) = true

/-- The key for a queen is pressed on a cell that a queen attacks. -/
def Refuses (game : Game) (occurrence : Occurrence) : Prop :=
  occurrence.command? = some .toggleQueen ∧ (game.occupancyAt game.cursor).1 = .blocked

/-- The key for a queen is pressed on another cell, and the board is not full with that. -/
def Edits (game : Game) (occurrence : Occurrence) : Prop :=
  occurrence.command? = some .toggleQueen ∧ (game.occupancyAt game.cursor).1 ≠ .blocked ∧
    ¬(game.receive occurrence).ShowsSolution

variable {game : Game} {occurrence : Occurrence}

/-! ## Full boards -/

theorem Sound.showsSolution_iff (h : game.Sound) :
    game.ShowsSolution ↔ game.position.queenCount = game.rows := by
  constructor
  · rintro ⟨squares, hposition, hlength, _⟩
    rw [hposition, Position.queenCount_ofSquares, hlength]
  · intro hcount
    obtain ⟨squares, hposition, hpeace⟩ := h.peaceful
    rw [hposition, Position.queenCount_ofSquares] at hcount
    exact ⟨squares, hposition, hcount, hpeace⟩

theorem not_showsSolution_of_empty (h : game.position = .empty) : ¬game.ShowsSolution := by
  rintro ⟨squares, hposition, hlength, _⟩
  have hrows := game.one_le_rows
  have hcount := congrArg Position.queenCount (h.symm.trans hposition)
  rw [Position.queenCount_ofSquares] at hcount
  have hnone : Position.empty.queenCount = 0 := rfl
  omega

/-- A search that goes on has not filled the board. -/
theorem Shows.not_showsSolution {walk : Walk Placement}
    (h : Shows game.rows game.steps game.position walk) : ¬game.ShowsSolution := by
  rintro ⟨squares, hposition, hlength, _⟩
  obtain ⟨placement, hcandidate, hshown⟩ := h.shown
  have hcount := congrArg Position.queenCount (hposition.symm.trans hshown)
  simp only [Position.queenCount_ofSquares] at hcount
  have hfinal := h.isFinal_eq
  rw [h.arises.isFinal_eq, hcandidate, Option.all_some, Placement.isComplete, Placement.queenCount,
    (h.arises.legal hcandidate).size_eq, beq_eq_false_iff_ne] at hfinal
  omega

/-- Where the board is not edited, the status tells of a full one. -/
theorem Sound.solved_of_showsSolution (h : game.Sound) (hediting : game.status ≠ .editing)
    (hfull : game.ShowsSolution) : game.status = .solved := by
  rcases h.status.pending_cases with ⟨_, hsearching, hpaused⟩ | ⟨_, _, hshows, _⟩
  · cases hgame : game.status with
    | solved => rfl
    | editing => exact absurd hgame hediting
    | searching => exact absurd hgame hsearching
    | paused => exact absurd hgame hpaused
    | noSolution =>
        have hempty := (h.not_solvable_of_noSolution hgame).1
        exact absurd hfull (not_showsSolution_of_empty hempty)
  · exact absurd hfull hshows.not_showsSolution

/-! ## Messages -/

/-- The message tells nothing of how it went that the status does not tell. -/
def Fits (message : Option Message) (status : Status) : Prop :=
  ∀ text, message = some text → (text.tellsSolved = true → status = .solved) ∧
    (text.tellsUnsolvable = true → status = .noSolution)

theorem fits_solved {text : Message} (h : text.tellsUnsolvable = false) :
    Fits (some text) .solved := by
  intro other hother
  obtain rfl := Option.some.inj hother
  exact ⟨fun _ => rfl, fun htells => absurd htells (by simp [h])⟩

theorem fits_noSolution {text : Message} (h : text.tellsSolved = false) :
    Fits (some text) .noSolution := by
  intro other hother
  obtain rfl := Option.some.inj hother
  exact ⟨fun htells => absurd htells (by simp [h]), fun _ => rfl⟩

theorem not_announces_of_none (h : game.message = none) : ¬game.Announces := by
  rintro ⟨text, htext, _⟩
  rw [h] at htext
  cases htext

theorem not_announces_of_some {text : Message} (h : game.message = some text)
    (hsilent : (text.tellsSolved || text.tellsUnsolvable) = false) : ¬game.Announces := by
  rintro ⟨other, hother, htells⟩
  rw [h] at hother
  obtain rfl := Option.some.inj hother
  rw [hsilent] at htells
  cases htells

theorem fits_of_not_announces (h : ¬game.Announces) (status : Status) :
    Fits game.message status := by
  intro text htext
  have hnone := mt (fun htells => ⟨text, htext, htells⟩) h
  rw [Bool.or_eq_true, not_or] at hnone
  exact ⟨fun htells => absurd htells hnone.1, fun htells => absurd htells hnone.2⟩

theorem fits_iff_not_announces {status : Status} (hsolved : status ≠ .solved)
    (hnone : status ≠ .noSolution) : Fits game.message status ↔ ¬game.Announces := by
  constructor
  · rintro hfits ⟨text, htext, htells⟩
    rcases Bool.or_eq_true_iff.mp htells with htells | htells
    · exact hsolved ((hfits text htext).1 htells)
    · exact hnone ((hfits text htext).2 htells)
  · intro h
    exact fits_of_not_announces h status

theorem Sound.truthful_iff (h : game.Sound) : game.Truthful ↔ Fits game.message game.status := by
  constructor
  · intro htruth text htext
    exact ⟨fun htells => (htruth.solved text htext htells).1,
      fun htells => (htruth.unsolvable text htext htells).1⟩
  · intro hfits
    refine ⟨?_, ?_⟩
    · intro text htext htells
      have hsolved := (hfits text htext).1 htells
      exact ⟨hsolved, h.showsSolution_iff.mpr (h.queenCount_of_solved hsolved)⟩
    · intro text htext htells
      have hnone := (hfits text htext).2 htells
      exact ⟨hnone, (h.not_solvable_of_noSolution hnone).1⟩

/-! ## What an occurrence does to status and message -/

theorem occupancyAt_fst (h : game.cells.Serves game.rows) (square : Square) :
    (game.occupancyAt square).1 =
      game.position.occupancy (.of square.row square.column game.rows) := by
  rw [← h.get_fst]
  rfl

theorem receive_of_command {command : Command} (h : occurrence.command? = some command) :
    game.receive occurrence = (game.perform command).game := by
  cases occurrence with
  | press key =>
      change key.command? = some command at h
      rw [receive, press, h]
  | tick | look | draw => cases h

/-- The three things that the key for a queen does. -/
theorem toggle_cases (h : game.Sound) (htoggle : occurrence.command? = some .toggleQueen) :
    let next := game.receive occurrence
    (game.Refuses occurrence ∧ next.status = .editing ∧ next.position = game.position ∧
        next.rows = game.rows ∧ next.message = some .squareAttacked) ∨
      (¬game.Refuses occurrence ∧ next.ShowsSolution ∧ next.status = .solved ∧
        next.message = some .solvedByHand) ∨
      (game.Edits occurrence ∧ next.status = .editing ∧ next.message = game.message) := by
  have hreceive : game.receive occurrence = game.toggleQueen := receive_of_command htoggle
  have hsound := h.toggleQueen
  have hnext := toggleQueen_eq h.grounded.cells
  rw [← occupancyAt_fst h.grounded.cells] at hnext
  simp only [Refuses, Edits, htoggle, true_and, hreceive]
  rw [hsound.showsSolution_iff]
  by_cases hblocked : (game.occupancyAt game.cursor).1 = .blocked
  · rw [if_pos hblocked] at hnext
    refine .inl ⟨hblocked, ?_⟩
    rw [hnext]
    refine ⟨rfl, ?_, rfl, rfl⟩
    rw [occupancyAt_fst h.grounded.cells] at hblocked
    simp [toggled, Position.toggle, hblocked]
  · rw [if_neg hblocked] at hnext
    by_cases hfull : game.toggled.position.queenCount = game.rows
    · rw [if_pos hfull] at hnext
      rw [hnext]
      exact .inr (.inl ⟨hblocked, hfull, rfl, rfl⟩)
    · rw [if_neg hfull] at hnext
      rw [hnext]
      exact .inr (.inr ⟨⟨hblocked, hfull⟩, rfl, rfl⟩)

theorem isPlaying_of_editing (h : game.status = .editing) : game.isPlaying = false := by
  simp [isPlaying, h]

/-- A tick counts for nothing where no search is played. -/
theorem receive_of_command?_eq_none (h : occurrence.command? = none)
    (hstill : game.isPlaying = false) :
    let next := game.receive occurrence
    next.position = game.position ∧ next.rows = game.rows ∧ next.status = game.status ∧
      next.message = game.message := by
  cases occurrence with
  | look square => exact ⟨rfl, rfl, rfl, rfl⟩
  | draw width height => exact ⟨rfl, rfl, rfl, rfl⟩
  | tick =>
      have hsame : game.receive .tick = game := by simp [receive, tick, hstill]
      rw [hsame]
      exact ⟨rfl, rfl, rfl, rfl⟩
  | press key =>
      change key.command? = none at h
      have hsame : game.receive (.press key) = game := by simp [receive, press, h]
      rw [hsame]
      exact ⟨rfl, rfl, rfl, rfl⟩

theorem receive_of_isSilent (hsilent : occurrence.isSilent = true)
    (hstill : game.isPlaying = false) :
    let next := game.receive occurrence
    next.position = game.position ∧ next.rows = game.rows ∧ next.status = game.status ∧
      next.message = game.message := by
  cases hcommand : occurrence.command? with
  | none => exact receive_of_command?_eq_none hcommand hstill
  | some command =>
      rw [receive_of_command hcommand]
      simp only [Occurrence.isSilent, hcommand] at hsilent
      cases command with
      | quit => exact ⟨rfl, rfl, rfl, rfl⟩
      | move direction => exact ⟨rfl, rfl, rfl, rfl⟩
      | nextTheme => exact ⟨rfl, rfl, rfl, rfl⟩
      | _ => cases hsilent

theorem receive_of_isIdle (hidle : occurrence.isIdle = true) (hstill : game.isPlaying = false) :
    let next := game.receive occurrence
    next.position = game.position ∧ next.rows = game.rows ∧ next.status = game.status ∧
      (occurrence.isSilent = true ∧ next.message = game.message ∨ ¬next.Announces) := by
  rcases Bool.or_eq_true_iff.mp hidle with hsilent | hengine
  · obtain ⟨hposition, hrows, hstatus, hmessage⟩ := receive_of_isSilent hsilent hstill
    exact ⟨hposition, hrows, hstatus, .inl ⟨hsilent, hmessage⟩⟩
  · rw [receive_of_command (eq_of_beq hengine)]
    exact ⟨rfl, rfl, rfl, .inr (not_announces_of_some rfl rfl)⟩

/-! ### Steps -/

theorem not_announces_started (h : game.pending.isSome = true → ¬game.Announces) :
    ¬game.started.Announces := by
  unfold started
  split
  · rename_i hpending
    exact h hpending
  · rw [startSearch_eq]
    exact not_announces_of_none rfl

theorem fits_stepOnce (hstatus : game.status = .searching ∨ game.status = .paused)
    (hwalk : Placement.Arises game.rows game.nextWalk ∧ game.nextWalk.isFinal = false)
    (hsilent : game.pending.isSome = true → ¬game.Announces) :
    let next := game.stepOnce.1
    next.status ≠ .editing ∧ Fits next.message next.status := by
  have hstarted : game.started.status = game.status := by
    unfold started
    split
    · rfl
    · rw [startSearch_eq]
  obtain ⟨next, _, _, hcases⟩ := stepOnce_cases hwalk.1 hwalk.2
  rcases hcases with ⟨placement, _, _, heq⟩ | ⟨placement, _, _, heq⟩ | ⟨_, heq⟩
  · rw [heq]
    refine ⟨?_, fits_of_not_announces (not_announces_started hsilent) _⟩
    change game.started.status ≠ .editing
    rw [hstarted]
    rcases hstatus with hstatus | hstatus <;> simp [hstatus]
  · rw [heq]
    exact ⟨by simp [solvedIn], fits_solved rfl⟩
  · rw [heq]
    exact ⟨by simp [unsolvedAfter], fits_noSolution rfl⟩

theorem fits_solve (game : Game) :
    let next := game.solve.1
    next.status ≠ .editing ∧ Fits next.message next.status := by
  unfold solve
  cases hqueens : (game.config.engine.solve game.rows).queens with
  | some queens =>
      simp only [hqueens]
      exact ⟨by simp, fits_solved rfl⟩
  | none =>
      simp only [hqueens]
      exact ⟨by simp, fits_noSolution rfl⟩

/-- While a search is pending there is nothing to be told yet. -/
theorem Sound.not_announces_of_pending (h : game.Sound)
    (hfits : game.status ≠ .editing → Fits game.message game.status)
    (hpending : game.pending.isSome = true) : ¬game.Announces := by
  have hstatus := h.pending_isSome_iff.mp hpending
  have hediting : game.status ≠ .editing := by rcases hstatus with hs | hs <;> simp [hs]
  have hsolved : game.status ≠ .solved := by rcases hstatus with hs | hs <;> simp [hs]
  have hnone : game.status ≠ .noSolution := by rcases hstatus with hs | hs <;> simp [hs]
  exact (fits_iff_not_announces hsolved hnone).mp (hfits hediting)

theorem Sound.fits_togglePlayback (h : game.Sound)
    (hfits : game.status ≠ .editing → Fits game.message game.status) :
    let next := game.togglePlayback
    next.status ≠ .editing ∧ Fits next.message next.status := by
  unfold Game.togglePlayback
  split
  · rename_i hsearching
    have hpending := h.pending_isSome_iff.mpr (.inl hsearching)
    exact ⟨by simp, fits_of_not_announces (h.not_announces_of_pending hfits hpending) .paused⟩
  · split
    · rename_i hpaused
      have hsilent := h.not_announces_of_pending hfits hpaused.2
      exact ⟨by simp, fits_of_not_announces hsilent .searching⟩
    · rw [startSearch_eq]
      have hsilent : ¬Announces { game with message := none } := not_announces_of_none rfl
      exact ⟨by simp, fits_of_not_announces hsilent .searching⟩

/-- All that an occurrence does to status and message, the key for a queen apart. Where the board
is not edited behind it, the message fits; where it is, nothing has happened or the board is
empty. -/
theorem receive_cases (h : game.Sound)
    (hfits : game.status ≠ .editing → Fits game.message game.status)
    (htoggle : occurrence.command? ≠ some .toggleQueen) :
    let next := game.receive occurrence
    (next.status ≠ .editing ∧ Fits next.message next.status) ∨
      (game.status = .editing ∧ occurrence.isIdle = true) ∨
      (next.status = .editing ∧ next.position = .empty ∧ ¬next.Announces) := by
  by_cases hidle : game.status = .editing ∧ occurrence.isIdle = true
  · exact .inr (.inl hidle)
  -- What is idle leaves the status, so from here on it comes after another status than editing.
  cases hcommand : occurrence.command? with
  | none =>
      have hediting : game.status ≠ .editing := by
        simpa [Occurrence.isIdle, Occurrence.isSilent, hcommand] using hidle
      refine .inl ?_
      by_cases hplaying : game.isPlaying = true
      · cases occurrence with
        | look square => exact ⟨hediting, hfits hediting⟩
        | draw width height => exact ⟨hediting, hfits hediting⟩
        | tick =>
            have htick : game.receive .tick = game.stepOnce.1 := by simp [receive, tick, hplaying]
            rw [htick]
            exact fits_stepOnce (.inl (eq_of_beq hplaying)) h.nextWalk
              (h.not_announces_of_pending hfits)
        | press key =>
            change key.command? = none at hcommand
            simp only [receive, press, hcommand]
            exact ⟨hediting, hfits hediting⟩
      · obtain ⟨_, _, hstatus, hmessage⟩ :=
          receive_of_command?_eq_none hcommand (eq_false_of_ne_true hplaying)
        rw [hstatus, hmessage]
        exact ⟨hediting, hfits hediting⟩
  | some command =>
      rw [receive_of_command hcommand]
      simp only [Occurrence.isIdle, Occurrence.isSilent, hcommand] at hidle
      cases command with
      | toggleQueen => exact absurd hcommand htoggle
      | quit | move | nextTheme =>
          have hediting : game.status ≠ .editing := by simpa using hidle
          exact .inl ⟨hediting, hfits hediting⟩
      | nextEngine =>
          have hediting : game.status ≠ .editing := by simpa using hidle
          exact .inl ⟨hediting, fits_of_not_announces (not_announces_of_some rfl rfl) _⟩
      | solve => exact .inl game.fits_solve
      | togglePlayback => exact .inl (h.fits_togglePlayback hfits)
      | stepOnce =>
          exact .inl (fits_stepOnce (.inr rfl) h.nextWalk (h.not_announces_of_pending hfits))
      | grow => exact .inr (.inr ⟨rfl, rfl, not_announces_of_some rfl rfl⟩)
      | shrink => exact .inr (.inr ⟨rfl, rfl, not_announces_of_some rfl rfl⟩)
      | clear => exact .inr (.inr ⟨rfl, rfl, not_announces_of_none rfl⟩)

theorem Sound.fits_receive (h : game.Sound)
    (hfits : game.status ≠ .editing → Fits game.message game.status)
    (hnext : (game.receive occurrence).status ≠ .editing) :
    Fits (game.receive occurrence).message (game.receive occurrence).status := by
  by_cases htoggle : occurrence.command? = some .toggleQueen
  · rcases toggle_cases h htoggle with ⟨_, hediting, _⟩ | ⟨_, _, hstatus, hmessage⟩ |
      ⟨_, hediting, _⟩
    · exact absurd hediting hnext
    · rw [hstatus, hmessage]
      exact fits_solved rfl
    · exact absurd hediting hnext
  · rcases receive_cases h hfits htoggle with ⟨_, hfits⟩ | ⟨hediting, hidle⟩ | ⟨hediting, _⟩
    · exact hfits
    · obtain ⟨_, _, hstatus, _⟩ := receive_of_isIdle hidle (isPlaying_of_editing hediting)
      exact absurd (hstatus.trans hediting) hnext
    · exact absurd hediting hnext

theorem Reachable.fits (h : Reachable game) (hediting : game.status ≠ .editing) :
    Fits game.message game.status := by
  induction h with
  | new config theme delay => exact absurd rfl hediting
  | @press game h key ih =>
      have hreceive := @Sound.fits_receive game (.press key) h.sound ih
      exact hreceive hediting
  | @tick game h ih =>
      have hreceive := @Sound.fits_receive game .tick h.sound ih
      exact hreceive hediting
  | occupancyAt _ _ ih => exact ih hediting
  | frame _ _ _ ih => exact ih hediting

/-! ## Numbers of steps -/

/-- What is said of numbers of steps is right. -/
def Counted (game : Game) : Prop :=
  ∀ message, game.message = some message → message.Counts game.rows game.steps

theorem counted_of_none (h : game.message = none) : game.Counted := by
  intro message hmessage
  rw [h] at hmessage
  cases hmessage

theorem counted_of_some {message : Message} (h : game.message = some message)
    (hcounts : message.Counts game.rows game.steps) : game.Counted := by
  intro other hother
  rw [h] at hother
  cases hother
  exact hcounts

/-- A message that announces nothing does not depend on the number of steps. -/
theorem Counted.of_not_announces (h : game.Counted) (hsilent : ¬game.Announces) (steps : Nat)
    {message : Message} (hmessage : game.message = some message) :
    message.Counts game.rows steps := by
  have hcounts := h message hmessage
  have hnone := mt (fun htells => ⟨message, hmessage, htells⟩) hsilent
  cases message with
  | solvedIn count => exact absurd rfl hnone
  | noSolutionAfter count => exact hcounts
  | failed fault => exact hcounts
  | _ => trivial

theorem Counted.stepOnce (hcounted : game.Counted) (h : game.Sound)
    (hfits : game.status ≠ .editing → Fits game.message game.status) (status : Status) :
    ({ game with status } : Game).stepOnce.1.Counted := by
  let begun := ({ game with status } : Game).started
  have hmessage : ∀ message, begun.message = some message → ∀ steps,
      message.Counts game.rows steps := by
    intro message hmessage steps
    cases hpending : game.pending with
    | none =>
        have hbegun : begun = ({ game with status } : Game).startSearch := by
          simp [begun, started, hpending]
        rw [hbegun, startSearch_eq] at hmessage
        cases hmessage
    | some walk =>
        have hbegun : begun = { game with status } := by simp [begun, started, hpending]
        rw [hbegun] at hmessage
        exact hcounted.of_not_announces
          (h.not_announces_of_pending hfits (by simp [hpending])) steps hmessage
  obtain ⟨next, _, hnext, hcases⟩ :=
    @stepOnce_cases { game with status } h.nextWalk.1 h.nextWalk.2
  rcases hcases with ⟨_, _, _, heq⟩ | ⟨_, _, _, heq⟩ | ⟨hnone, heq⟩
  · rw [heq]
    intro message hafter
    change message.Counts begun.rows _
    rw [rows_started]
    exact hmessage message hafter _
  · rw [heq]
    exact counted_of_some rfl rfl
  · rw [heq]
    apply counted_of_some rfl
    have hover : next.isFinal = true := by
      rw [hnext.isFinal_eq, hnone]
      rfl
    have hends := Placement.endsAfter_expansions game.rows
    obtain ⟨count, hcount⟩ := hnext
    change next.advances = (Placement.empty begun.rows).expansions ∧ ¬Solvable begun.rows
    rw [rows_started, SearchTree.advances_walkAfter hcount]
    exact ⟨(hends.isFinal_iff hcount).mp hover, Placement.Arises.not_solvable ⟨_, hcount⟩ hnone⟩

theorem Counted.perform (hcounted : game.Counted) (h : game.Sound)
    (hfits : game.status ≠ .editing → Fits game.message game.status) (command : Command) :
    (game.perform command).game.Counted := by
  cases command with
  | quit | move | nextTheme => exact hcounted
  | toggleQueen =>
      change game.toggleQueen.Counted
      rw [toggleQueen_eq h.grounded.cells]
      split
      · exact counted_of_some rfl trivial
      · split
        · exact counted_of_some rfl trivial
        · exact hcounted
  | solve =>
      change game.solve.1.Counted
      unfold solve
      cases hqueens : (game.config.engine.solve game.rows).queens with
      | some queens =>
          simp only [hqueens]
          exact counted_of_some rfl trivial
      | none =>
          simp only [hqueens]
          exact counted_of_some rfl trivial
  | togglePlayback =>
      change game.togglePlayback.Counted
      unfold togglePlayback
      split
      · exact hcounted
      · split
        · exact hcounted
        · rw [startSearch_eq]
          exact counted_of_none rfl
  | stepOnce => exact hcounted.stepOnce h hfits .paused
  | nextEngine => exact counted_of_some rfl trivial
  | grow => exact counted_of_some rfl trivial
  | shrink => exact counted_of_some rfl trivial
  | clear => exact counted_of_none rfl

theorem Reachable.counted (h : Reachable game) : game.Counted := by
  induction h with
  | new config theme delay => exact counted_of_none rfl
  | @press game h key ih =>
      unfold Game.press
      cases key.command? with
      | none => exact ih
      | some command => exact ih.perform h.sound h.fits command
  | @tick game h ih =>
      unfold Game.tick
      split
      · exact ih.stepOnce h.sound h.fits game.status
      · exact ih
  | occupancyAt _ _ ih => exact ih
  | frame _ _ _ ih => exact ih

end Game

end QueensPuzzle.Console
