import QueensPuzzle.Proofs.Console.Messages

/-! # When the status line is wrong

While the board is edited, the status may fail to tell of a full board, and a message may announce
what is no longer so. A toggle that is refused makes a full board an edited one, and a toggle that
has nothing to say leaves the message of before. For either failure there is an occurrence to blame,
the last one of its kind, and it comes in no other way.
-/

namespace QueensPuzzle.Console.Game

variable {game first : Game}

theorem Reachable.play (h : Reachable game) (happened : List Occurrence) :
    Reachable (game.play happened) := by
  induction happened generalizing game with
  | nil => exact h
  | cons first happened ih => exact ih (h.receive first)

/-- Let a state be bad after an occurrence exactly if that one breaks it, or keeps it bad. Then it
is bad in the end exactly if some occurrence broke it and those behind it kept it so. -/
theorem play_iff_exists_break (bad : Game → Prop) (breaks : Game → Occurrence → Prop)
    (keeps : Occurrence → Bool) (hfirst : Reachable first) (hgood : ¬bad first)
    (hstep : ∀ game, Reachable game → ∀ occurrence,
      bad (game.receive occurrence) ↔ breaks game occurrence ∨ bad game ∧ keeps occurrence = true)
    (happened : List Occurrence) :
    bad (first.play happened) ↔ ∃ before last after, happened = before ++ last :: after ∧
      breaks (first.play before) last ∧ ∀ occurrence ∈ after, keeps occurrence = true := by
  -- Both ways from the end: the last occurrence breaks it, or keeps what was broken before.
  constructor
  · intro hbad
    induction happened using List.reverseRecOn with
    | nil => exact absurd hbad hgood
    | append_singleton before last ih =>
        rw [play_concat, hstep _ (hfirst.play before)] at hbad
        rcases hbad with hbreaks | ⟨hbefore, hkeeps⟩
        · exact ⟨before, last, [], rfl, hbreaks, by simp⟩
        · obtain ⟨start, cause, rest, rfl, hbreaks, hrest⟩ := ih hbefore
          refine ⟨start, cause, rest ++ [last], by simp, hbreaks, ?_⟩
          intro occurrence hmem
          rcases List.mem_append.mp hmem with hold | hnew
          · exact hrest occurrence hold
          · rw [List.mem_singleton.mp hnew]
            exact hkeeps
  · rintro ⟨before, last, after, rfl, hbreaks, hkeeps⟩
    induction after using List.reverseRecOn with
    | nil =>
        rw [play_concat, hstep _ (hfirst.play before)]
        exact .inl hbreaks
    | append_singleton after final ih =>
        rw [← List.cons_append, ← List.append_assoc, play_concat, hstep _ (hfirst.play _)]
        exact .inr ⟨ih fun occurrence hmem => hkeeps occurrence (List.mem_append_left _ hmem),
          hkeeps final (by simp)⟩

/-! ## A full board that is not told -/

theorem showsSolution_congr {other : Game} (hposition : other.position = game.position)
    (hrows : other.rows = game.rows) : other.ShowsSolution ↔ game.ShowsSolution := by
  rw [ShowsSolution, hposition, hrows, ShowsSolution]

theorem Sound.editing_of_untold (h : game.Sound) (hfull : game.ShowsSolution)
    (hstatus : game.status ≠ .solved) : game.status = .editing := by
  by_contra hediting
  exact hstatus (h.solved_of_showsSolution hediting hfull)

theorem untold_receive_iff (h : Reachable game) (occurrence : Occurrence) :
    let next := game.receive occurrence
    (next.ShowsSolution ∧ next.status ≠ .solved) ↔
      (game.ShowsSolution ∧ game.Refuses occurrence) ∨
        (game.ShowsSolution ∧ game.status ≠ .solved) ∧ occurrence.isIdle = true := by
  intro next
  have hsound := h.sound
  have hnext := (h.receive occurrence).sound
  constructor
  · rintro ⟨hfull, hstatus⟩
    by_cases htoggle : occurrence.command? = some .toggleQueen
    · rcases toggle_cases hsound htoggle with ⟨hrefuses, _, hposition, hrows, _⟩ |
        ⟨_, _, hsolved, _⟩ | ⟨hedits, _⟩
      · exact .inl ⟨(showsSolution_congr hposition hrows).mp hfull, hrefuses⟩
      · exact absurd hsolved hstatus
      · exact absurd hfull hedits.2.2
    · rcases receive_cases hsound h.fits htoggle with ⟨hediting, _⟩ | ⟨hediting, hidle⟩ |
        ⟨_, hempty, _⟩
      · exact absurd (hnext.editing_of_untold hfull hstatus) hediting
      · obtain ⟨hposition, hrows, _⟩ := receive_of_isIdle hidle (isPlaying_of_editing hediting)
        exact .inr ⟨⟨(showsSolution_congr hposition hrows).mp hfull, by simp [hediting]⟩, hidle⟩
      · exact absurd hfull (not_showsSolution_of_empty hempty)
  · rintro (⟨hfull, hrefuses⟩ | ⟨⟨hfull, hstatus⟩, hidle⟩)
    · rcases toggle_cases hsound hrefuses.1 with ⟨_, hediting, hposition, hrows, _⟩ |
        ⟨hnot, _⟩ | ⟨hedits, _⟩
      · exact ⟨(showsSolution_congr hposition hrows).mpr hfull, by simp [next, hediting]⟩
      · exact absurd hrefuses hnot
      · exact absurd hrefuses.2 hedits.2.1
    · have hediting := hsound.editing_of_untold hfull hstatus
      obtain ⟨hposition, hrows, hsame, _⟩ :=
        receive_of_isIdle hidle (isPlaying_of_editing hediting)
      exact ⟨(showsSolution_congr hposition hrows).mpr hfull, by simp [next, hsame, hediting]⟩

/-- A game comes to show a solution that its status does not tell of in one way only: the key for a
queen was pressed on a full board, on a cell without a queen, and nothing has concerned the board
since. -/
theorem solution_untold_iff (config : Config) (theme : ThemeName) (delay : Nat)
    (happened : List Occurrence) :
    let first := new config theme delay
    ((first.play happened).ShowsSolution ∧ (first.play happened).status ≠ .solved) ↔
      ∃ before refused after, happened = before ++ refused :: after ∧
        ((first.play before).ShowsSolution ∧ (first.play before).Refuses refused) ∧
        ∀ occurrence ∈ after, occurrence.isIdle = true := by
  intro first
  have hfirst : Reachable first := .new config theme delay
  refine play_iff_exists_break (fun game => game.ShowsSolution ∧ game.status ≠ .solved)
    (fun game occurrence => game.ShowsSolution ∧ game.Refuses occurrence) Occurrence.isIdle
    hfirst ?_ (fun game h => untold_receive_iff h) happened
  rintro ⟨hfull, _⟩
  exact not_showsSolution_of_empty rfl hfull

/-- A game that the depth-first engine was asked to solve, and in which the key for a queen was
pressed then. -/
def solvedThenToggled (size : BoardSize) : Game :=
  (new ⟨.backtracking, size⟩ default defaultDelay).play
    [.press { code := .character 's' }, .press { code := .enter }]

theorem reachable_solvedThenToggled (size : BoardSize) : Reachable (solvedThenToggled size) :=
  Reachable.play (.new _ _ _) _

/-- On four rows the cursor is on a corner without a queen. -/
theorem solution_untold :
    Reachable (solvedThenToggled { rows := 4 }) ∧
      (solvedThenToggled { rows := 4 }).ShowsSolution ∧
      (solvedThenToggled { rows := 4 }).status = .editing := by
  have hreachable := reachable_solvedThenToggled { rows := 4 }
  have hcount : (solvedThenToggled { rows := 4 }).position.queenCount = 4 := by cbv
  have hrows : (solvedThenToggled { rows := 4 }).rows = 4 := by cbv
  exact ⟨hreachable, hreachable.sound.showsSolution_iff.mpr (hcount.trans hrows.symm), by cbv⟩

/-! ## A message that is not true any more -/

theorem Reachable.editing_of_not_truthful (h : Reachable game) (hfalse : ¬game.Truthful) :
    game.status = .editing ∧ game.Announces := by
  rw [h.sound.truthful_iff] at hfalse
  have hediting : game.status = .editing := by
    by_contra hne
    exact hfalse (h.fits hne)
  rw [hediting, fits_iff_not_announces (by decide) (by decide), not_not] at hfalse
  exact ⟨hediting, hfalse⟩

theorem not_truthful_of_editing (h : Reachable game) (hediting : game.status = .editing)
    (htells : game.Announces) : ¬game.Truthful := by
  rw [h.sound.truthful_iff, hediting, fits_iff_not_announces (by decide) (by decide), not_not]
  exact htells

theorem announces_congr {other : Game} (hmessage : other.message = game.message) :
    other.Announces ↔ game.Announces := by
  rw [Announces, hmessage, Announces]

theorem not_truthful_receive_iff (h : Reachable game) (occurrence : Occurrence) :
    ¬(game.receive occurrence).Truthful ↔
      (game.Announces ∧ game.Edits occurrence) ∨
        ¬game.Truthful ∧ occurrence.isSilent = true := by
  have hsound := h.sound
  have hreachable := h.receive occurrence
  constructor
  · intro hfalse
    obtain ⟨hediting, htells⟩ := hreachable.editing_of_not_truthful hfalse
    by_cases htoggle : occurrence.command? = some .toggleQueen
    · rcases toggle_cases hsound htoggle with ⟨_, _, _, _, hmessage⟩ | ⟨_, _, hsolved, _⟩ |
        ⟨hedits, _, hmessage⟩
      · exact absurd htells (not_announces_of_some hmessage rfl)
      · rw [hsolved] at hediting
        cases hediting
      · exact .inl ⟨(announces_congr hmessage).mp htells, hedits⟩
    · rcases receive_cases hsound h.fits htoggle with ⟨hne, _⟩ | ⟨hbefore, hidle⟩ | ⟨_, _, hnone⟩
      · exact absurd hediting hne
      · obtain ⟨_, _, _, ⟨hsilent, hmessage⟩ | hnone⟩ :=
          receive_of_isIdle hidle (isPlaying_of_editing hbefore)
        · exact .inr ⟨not_truthful_of_editing h hbefore ((announces_congr hmessage).mp htells),
            hsilent⟩
        · exact absurd htells hnone
      · exact absurd htells hnone
  · rintro (⟨htells, hedits⟩ | ⟨hfalse, hsilent⟩)
    · rcases toggle_cases hsound hedits.1 with ⟨hrefuses, _⟩ | ⟨_, hfull, _⟩ |
        ⟨_, hediting, hmessage⟩
      · exact absurd hrefuses.2 hedits.2.1
      · exact absurd hfull hedits.2.2
      · exact not_truthful_of_editing hreachable hediting ((announces_congr hmessage).mpr htells)
    · obtain ⟨hediting, htells⟩ := h.editing_of_not_truthful hfalse
      obtain ⟨_, _, hstatus, hmessage⟩ :=
        receive_of_isSilent hsilent (isPlaying_of_editing hediting)
      exact not_truthful_of_editing hreachable (hstatus.trans hediting)
        ((announces_congr hmessage).mpr htells)

/-- A message that tells how it went is left standing in one way only: there was one, the key for a
queen put a queen on the board or took one off without filling it, and nothing but cursor, theme
and timer were at work since. -/
theorem message_stale_iff (config : Config) (theme : ThemeName) (delay : Nat)
    (happened : List Occurrence) :
    let first := new config theme delay
    ¬(first.play happened).Truthful ↔
      ∃ before edit after, happened = before ++ edit :: after ∧
        ((first.play before).Announces ∧ (first.play before).Edits edit) ∧
        ∀ occurrence ∈ after, occurrence.isSilent = true := by
  intro first
  have hfirst : Reachable first := .new config theme delay
  refine play_iff_exists_break (fun game => ¬game.Truthful)
    (fun game occurrence => game.Announces ∧ game.Edits occurrence) Occurrence.isSilent
    hfirst ?_ (fun game h => not_truthful_receive_iff h) happened
  rw [not_not, hfirst.sound.truthful_iff]
  exact fits_of_not_announces (not_announces_of_none rfl) first.status

/-- On one row the queen that the engine put is taken off again; on two rows a queen is put where
the engine has found no solution. -/
theorem message_stale :
    (Reachable (solvedThenToggled { rows := 1 }) ∧
      (solvedThenToggled { rows := 1 }).message = some (.solvedWith .backtracking) ∧
      (solvedThenToggled { rows := 1 }).status = .editing ∧
      (solvedThenToggled { rows := 1 }).position = .empty) ∧
    Reachable (solvedThenToggled { rows := 2 }) ∧
      (solvedThenToggled { rows := 2 }).message = some .noSolution ∧
      (solvedThenToggled { rows := 2 }).status = .editing ∧
      (solvedThenToggled { rows := 2 }).position = .ofSquares [⟨0, 0⟩] 2 :=
  ⟨⟨reachable_solvedThenToggled _, by cbv, by cbv, by cbv⟩,
    reachable_solvedThenToggled _, by cbv, by cbv, by cbv⟩

end QueensPuzzle.Console.Game
