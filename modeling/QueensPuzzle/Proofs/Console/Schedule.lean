import QueensPuzzle.Proofs.Console.Reachable
import QueensPuzzle.Proofs.Placement.Candidates

/-! # When the steps of a search are asked for

While a search is played, the step key asks for a step at once and the timer for one with each
tick. How the steps are spread over keys and ticks, and what else happens in between, leaves no
trace: the board shows the walk that has taken as many advances, and the search is over with the
step that comes to the end of that walk.
-/

namespace QueensPuzzle.Console

open Search

/-- A key with which a search begins where none is pending. -/
def Key.StartsSearch (key : Key) : Prop :=
  key.command? = some .togglePlayback ∨ key.command? = some .stepOnce

/-- What may happen to a game: a key event, a tick, or that a square or all of it is looked at. -/
inductive Occurrence where
  | press (key : Key)
  | tick
  | look (square : Square)
  | draw (width height : Nat)

namespace Occurrence

/-- Whether a search that is played can go on behind it. -/
def keepsSearch : Occurrence → Bool
  | .press key =>
      match key.command? with
      | some .togglePlayback | some .stepOnce => true
      | some (.move _) | some .nextEngine | some .nextTheme => true
      | some _ => false
      | none => true
  | _ => true

/-- How many steps it asks for. -/
def steps (game : Game) : Occurrence → Nat
  | .press key => if key.command? = some .stepOnce then 1 else 0
  | .tick => if game.isPlaying then 1 else 0
  | _ => 0

end Occurrence

namespace Game

def receive (game : Game) : Occurrence → Game
  | .press key => (game.press key).game
  | .tick => game.tick.1
  | .look square => (game.occupancyAt square).2
  | .draw width height => (game.frame width height).2

def play (game : Game) (happened : List Occurrence) : Game := happened.foldl receive game

/-- How many steps are asked for while all of this happens. -/
def stepsAsked (game : Game) : List Occurrence → Nat
  | [] => 0
  | first :: rest => first.steps game + (game.receive first).stepsAsked rest

theorem play_concat (game : Game) (before : List Occurrence) (last : Occurrence) :
    game.play (before ++ [last]) = (game.play before).receive last := by
  simp [play]

theorem stepsAsked_concat (game : Game) (before : List Occurrence) (last : Occurrence) :
    game.stepsAsked (before ++ [last]) =
      game.stepsAsked before + last.steps (game.play before) := by
  induction before generalizing game with
  | nil => simp [stepsAsked, play]
  | cons first before ih =>
      have hrest := ih (game.receive first)
      simp only [List.cons_append, stepsAsked]
      rw [hrest, Nat.add_assoc]
      rfl

/-- A search on so many rows is played, and `count` steps of it were taken. -/
structure Plays (rows count : Nat) (game : Game) : Prop where
  reachable : Reachable game
  rows_eq : game.rows = rows
  pending : game.pending.isSome = true
  steps_eq : game.steps = count

/-- A search on so many rows is over after `total` steps, and the game tells how it went. -/
structure Concluded (rows total : Nat) (game : Game) : Prop where
  pending_eq : game.pending = none
  steps_eq : game.steps = total
  outcome : match (Engine.backtracking.solve rows).queens with
    | some queens => game.position = .ofSquares queens rows ∧ game.status = .solved ∧
        game.message = some (.solvedIn total)
    | none => game.position = .empty ∧ game.status = .noSolution ∧
        game.message = some (.noSolutionAfter total)

variable {game first : Game} {rows count : Nat} {walk : Walk Placement} {start : Key}

theorem Reachable.receive (h : Reachable game) (occurrence : Occurrence) :
    Reachable (game.receive occurrence) := by
  cases occurrence with
  | press key => exact h.press key
  | tick => exact h.tick
  | look square => exact h.occupancyAt square
  | draw width height => exact h.frame width height

/-- The walk that is pending is the one that as many advances lead to as there were steps. -/
theorem Plays.exists_walk (h : Plays rows count game) :
    ∃ walk, game.pending = some walk ∧ Placement.tree.walkAfter (.empty rows) count = .ok walk ∧
      Shows rows count game.position walk := by
  obtain ⟨walk, hwalk⟩ := Option.isSome_iff_exists.mp h.pending
  have hshows := h.reachable.sound.shows_of_pending hwalk
  rw [h.rows_eq, h.steps_eq] at hshows
  obtain ⟨taken, htaken⟩ := hshows.arises
  have hcount : count = taken :=
    hshows.steps_eq.trans (SearchTree.advances_walkAfter htaken)
  exact ⟨walk, hwalk, hcount ▸ htaken, hshows⟩

theorem Plays.count_lt (h : Plays rows count game) :
    count < (Placement.empty rows).expansions := by
  obtain ⟨walk, _, hcount, hshows⟩ := h.exists_walk
  have hends := Placement.endsAfter_expansions rows
  have hle := hends.le hcount
  have hne := mt (hends.isFinal_iff hcount).mpr (by simp [hshows.isFinal_eq])
  omega

/-! ## Steps -/

/-- A step goes on with the search or concludes it, which of the two is settled by the number of
steps. -/
theorem stepOnce_plays (hreachable : Reachable game.stepOnce.1)
    (hwalk : Placement.tree.walkAfter (.empty game.rows) count = .ok game.nextWalk)
    (hfinal : game.nextWalk.isFinal = false) :
    let total := (Placement.empty game.rows).expansions
    (count + 1 < total → Plays game.rows (count + 1) game.stepOnce.1) ∧
      (count + 1 = total → Concluded game.rows total game.stepOnce.1) := by
  intro total
  obtain ⟨next, hadvance, _, hcases⟩ := stepOnce_cases ⟨count, hwalk⟩ hfinal
  have hnext : Placement.tree.walkAfter (.empty game.rows) (count + 1) = .ok next :=
    SearchTree.walkAfter_succ_eq_ok_iff.mpr ⟨_, hwalk, hadvance⟩
  have hend := (Placement.endsAfter_expansions game.rows).isFinal_iff hnext
  have hsteps : next.advances = count + 1 := SearchTree.advances_walkAfter hnext
  rw [hsteps] at hcases
  rcases hcases with ⟨placement, _, hgoes, heq⟩ | ⟨placement, hcandidate, hover, heq⟩ |
    ⟨hcandidate, heq⟩
  · have hne : count + 1 ≠ total := mt hend.mpr (by simp [hgoes])
    refine ⟨fun _ => ?_, fun hcount => absurd hcount hne⟩
    rw [heq] at hreachable ⊢
    exact ⟨hreachable, rows_started game, rfl, rfl⟩
  · have hcount : count + 1 = total := hend.mp hover
    have hsolved := (Placement.queens_solve_of_isFinal hnext hover).2
    rw [hcandidate, Option.map_some] at hsolved
    refine ⟨fun hlt => absurd hcount (Nat.ne_of_lt hlt), fun _ => ?_⟩
    rw [heq]
    refine ⟨rfl, hcount, ?_⟩
    rw [hsolved, ← hcount, ← rows_started game]
    exact ⟨rfl, rfl, rfl⟩
  · have hover : next.isFinal = true := by
      rw [SearchTree.isFinal_walkAfter hnext, hcandidate]
      rfl
    have hcount : count + 1 = total := hend.mp hover
    have hnone := (Placement.queens_solve_of_isFinal hnext hover).2
    rw [hcandidate, Option.map_none] at hnone
    refine ⟨fun hlt => absurd hcount (Nat.ne_of_lt hlt), fun _ => ?_⟩
    rw [heq]
    refine ⟨rfl, hcount, ?_⟩
    rw [hnone, ← hcount]
    exact ⟨rfl, rfl, rfl⟩

/-- What a key for a step does, and what a tick does while a search is played. -/
theorem Plays.stepOnce (h : Plays rows count game) (status : Status)
    (hreachable : Reachable ({ game with status }).stepOnce.1) :
    let total := (Placement.empty rows).expansions
    (count + 1 < total → Plays rows (count + 1) ({ game with status }).stepOnce.1) ∧
      (count + 1 = total → Concluded rows total ({ game with status }).stepOnce.1) := by
  obtain ⟨walk, hwalk, hcount, hshows⟩ := h.exists_walk
  have hnext : ({ game with status }).nextWalk = walk := by simp [nextWalk, hwalk]
  obtain rfl := h.rows_eq
  apply stepOnce_plays hreachable
  · rw [hnext]
    exact hcount
  · rw [hnext]
    exact hshows.isFinal_eq

/-! ## All that may happen -/

/-- Playing and standing still change the status only. -/
theorem Plays.togglePlayback (h : Plays rows count game) :
    ∃ status, game.togglePlayback = { game with status } := by
  unfold Game.togglePlayback
  split
  · exact ⟨.paused, rfl⟩
  · rename_i hsearching
    have hstatus := (h.reachable.sound.pending_isSome_iff).mp h.pending
    rw [if_pos ⟨hstatus.resolve_left hsearching, h.pending⟩]
    exact ⟨.searching, rfl⟩

theorem Plays.receive_of_quiet (h : Plays rows count game) {occurrence : Occurrence}
    (hkeeps : occurrence.keepsSearch = true) (hquiet : occurrence.steps game = 0) :
    Plays rows count (game.receive occurrence) := by
  have hreachable := h.reachable.receive occurrence
  cases occurrence with
  | look square => exact ⟨hreachable, h.rows_eq, h.pending, h.steps_eq⟩
  | draw width height => exact ⟨hreachable, h.rows_eq, h.pending, h.steps_eq⟩
  | tick =>
      have hstill : ¬game.isPlaying = true := by simpa [Occurrence.steps] using hquiet
      have hsame : game.receive .tick = game := by simp [receive, tick, hstill]
      rw [hsame]
      exact h
  | press key =>
      simp only [receive, press] at hreachable ⊢
      cases hcommand : key.command? with
      | none => exact h
      | some command =>
          rw [hcommand] at hreachable
          cases command with
          | togglePlayback =>
              obtain ⟨status, hsame⟩ := h.togglePlayback
              simp only [perform, hsame] at hreachable ⊢
              exact ⟨hreachable, h.rows_eq, h.pending, h.steps_eq⟩
          | stepOnce => simp [Occurrence.steps, hcommand] at hquiet
          | move direction => exact ⟨hreachable, h.rows_eq, h.pending, h.steps_eq⟩
          | nextEngine => exact ⟨hreachable, h.rows_eq, h.pending, h.steps_eq⟩
          | nextTheme => exact ⟨hreachable, h.rows_eq, h.pending, h.steps_eq⟩
          | quit | toggleQueen | solve | grow | shrink | clear =>
              simp [Occurrence.keepsSearch, hcommand] at hkeeps

theorem receive_of_step {occurrence : Occurrence} (hsteps : occurrence.steps game ≠ 0) :
    occurrence.steps game = 1 ∧
      ∃ status, game.receive occurrence = ({ game with status }).stepOnce.1 := by
  cases occurrence with
  | look square => simp [Occurrence.steps] at hsteps
  | draw width height => simp [Occurrence.steps] at hsteps
  | tick =>
      have hplaying : game.isPlaying = true := by simpa [Occurrence.steps] using hsteps
      refine ⟨by simp [Occurrence.steps, hplaying], game.status, ?_⟩
      simp [receive, tick, hplaying]
  | press key =>
      have hcommand : key.command? = some .stepOnce := by simpa [Occurrence.steps] using hsteps
      refine ⟨by simp [Occurrence.steps, hcommand], .paused, ?_⟩
      simp [receive, press, hcommand, perform]

theorem Plays.receive (h : Plays rows count game) {occurrence : Occurrence}
    (hkeeps : occurrence.keepsSearch = true) :
    let total := (Placement.empty rows).expansions
    let more := count + occurrence.steps game
    more ≤ total ∧ (more < total → Plays rows more (game.receive occurrence)) ∧
      (more = total → Concluded rows total (game.receive occurrence)) := by
  intro total more
  have hlt : count < total := h.count_lt
  by_cases hquiet : occurrence.steps game = 0
  · have hmore : more = count := by omega
    rw [hmore]
    exact ⟨Nat.le_of_lt hlt, fun _ => h.receive_of_quiet hkeeps hquiet,
      fun hcount => absurd hcount (Nat.ne_of_lt hlt)⟩
  · obtain ⟨hone, status, hstep⟩ := receive_of_step hquiet
    have hmore : more = count + 1 := by omega
    have hreachable := h.reachable.receive occurrence
    rw [hstep] at hreachable
    rw [hmore, hstep]
    exact ⟨hlt, h.stepOnce status hreachable⟩

/-- The beginning of a search. With the step key it is the first step as well. -/
theorem receive_start (h : Reachable first) (hnone : first.pending = none)
    (hstart : start.StartsSearch) :
    let total := (Placement.empty first.rows).expansions
    let count := (Occurrence.press start).steps first
    count ≤ total ∧ (count < total → Plays first.rows count (first.receive (.press start))) ∧
      (count = total → Concluded first.rows total (first.receive (.press start))) := by
  intro total count
  have hreachable := h.receive (.press start)
  have hbegins : first.nextWalk = (Placement.empty first.rows).walk := by simp [nextWalk, hnone]
  have hfinal : (Placement.empty first.rows).walk.isFinal = false :=
    Placement.isFinal_walk first.one_le_rows
  have hpos : 0 < total := Placement.expansions_pos first.one_le_rows
  rcases hstart with hplay | hstep
  · have hzero : count = 0 := by simp [count, Occurrence.steps, hplay]
    have hstatus := mt h.sound.pending_isSome_iff.mpr (by simp [hnone])
    have hbegun :
        first.receive (.press start) = { first.startSearch with status := .searching } := by
      simp only [receive, press, hplay, perform, Game.togglePlayback]
      rw [if_neg fun hsearching => hstatus (.inl hsearching),
        if_neg fun hpaused => hstatus (.inr hpaused.1)]
    rw [hzero]
    refine ⟨Nat.zero_le _, fun _ => ?_, fun hcount => absurd hcount (Nat.ne_of_lt hpos)⟩
    rw [hbegun, startSearch_eq] at hreachable ⊢
    exact ⟨hreachable, rfl, rfl, rfl⟩
  · have hsteps : (Occurrence.press start).steps first ≠ 0 := by simp [Occurrence.steps, hstep]
    obtain ⟨hone, status, hstepped⟩ := receive_of_step hsteps
    rw [hstepped] at hreachable
    rw [show count = 0 + 1 from hone, hstepped]
    refine ⟨hpos, ?_⟩
    exact stepOnce_plays hreachable (hbegins ▸ SearchTree.walkAfter_zero) (hbegins ▸ hfinal)

theorem plays_of_stepsAsked_lt (h : Reachable first) (hnone : first.pending = none)
    (hstart : start.StartsSearch) {rest : List Occurrence}
    (hkeeps : ∀ occurrence ∈ rest, occurrence.keepsSearch = true)
    (hlt : first.stepsAsked (.press start :: rest) < (Placement.empty first.rows).expansions) :
    Plays first.rows (first.stepsAsked (.press start :: rest))
      (first.play (.press start :: rest)) := by
  induction rest using List.reverseRecOn with
  | nil => exact (receive_start h hnone hstart).2.1 hlt
  | append_singleton before last ih =>
      rw [← List.cons_append, stepsAsked_concat] at hlt ⊢
      rw [play_concat]
      have hbefore := ih (fun occurrence hmem => hkeeps occurrence (List.mem_append_left _ hmem))
        (by omega)
      exact (hbefore.receive (hkeeps last (by simp))).2.1 hlt

/-- Let a search begin with the play key or the step key, and let anything happen that does not end
it. As long as fewer steps were asked for than the eager search has expansions, the search goes on:
the number of its steps is the number of those that were asked for, and the board shows what as
many advances from the empty board lead to. What comes next raises the number by one at most. Where
it is then the number of expansions, the search is concluded: the board shows the solution of the
depth-first engine, or nothing where there is none, and the message tells the number. -/
theorem playback_depends_on_steps (h : Reachable first) (hnone : first.pending = none)
    (hstart : start.StartsSearch) {rest : List Occurrence}
    (hkeeps : ∀ occurrence ∈ rest, occurrence.keepsSearch = true) :
    let total := (Placement.empty first.rows).expansions
    let happened := .press start :: rest
    (first.stepsAsked happened < total →
      (first.play happened).steps = first.stepsAsked happened ∧
      ((first.play happened).status = .searching ∨ (first.play happened).status = .paused) ∧
      ∃ walk placement, (first.play happened).pending = some walk ∧
        Placement.tree.walkAfter (.empty first.rows) (first.stepsAsked happened) = .ok walk ∧
        walk.isFinal = false ∧ walk.candidate = some placement ∧
        (first.play happened).position = .ofSquares placement.queens first.rows) ∧
    ∀ before last, happened = before ++ [last] → first.stepsAsked before < total →
      first.stepsAsked happened ≤ total ∧
      (first.stepsAsked happened = total → Concluded first.rows total (first.play happened)) := by
  intro total happened
  refine ⟨?_, ?_⟩
  · intro hlt
    have hplays := plays_of_stepsAsked_lt h hnone hstart hkeeps hlt
    obtain ⟨walk, hwalk, hcount, hshows⟩ := hplays.exists_walk
    obtain ⟨placement, hcandidate, hposition⟩ := hshows.shown
    exact ⟨hplays.steps_eq, hplays.reachable.sound.pending_isSome_iff.mp hplays.pending,
      walk, placement, hwalk, hcount, hshows.isFinal_eq, hcandidate, hposition⟩
  · intro before last hsplit hlt
    cases before with
    | nil =>
        obtain ⟨rfl, rfl⟩ : .press start = last ∧ rest = [] := by simpa [happened] using hsplit
        obtain ⟨hle, _, hover⟩ := receive_start h hnone hstart
        exact ⟨hle, hover⟩
    | cons begun before =>
        obtain ⟨rfl, rfl⟩ : .press start = begun ∧ rest = before ++ [last] := by
          simpa [happened] using hsplit
        have hplays := plays_of_stepsAsked_lt h hnone hstart
          (fun occurrence hmem => hkeeps occurrence (List.mem_append_left _ hmem)) hlt
        obtain ⟨hle, _, hover⟩ := hplays.receive (hkeeps last (by simp))
        rw [hsplit, stepsAsked_concat, play_concat]
        exact ⟨hle, hover⟩

/-- A search on four rows that is played, stopped for one tick and played again. -/
def interrupted : List Occurrence :=
  [.press { code := .character 'p' }, .tick, .press { code := .character 'n' }, .tick,
    .look ⟨1, 1⟩, .press { code := .character 'e' }, .press { code := .character 'p' }] ++
  List.replicate 6 .tick

theorem interrupted_concluded :
    let first := new ⟨.astar, { rows := 4 }⟩ default defaultDelay
    first.stepsAsked interrupted = 8 ∧ Concluded 4 8 (first.play interrupted) := by
  intro first
  have hexpansions : (Placement.empty 4).expansions = 8 := by cbv
  have hasked : first.stepsAsked interrupted = 8 := by cbv
  have hbefore : first.stepsAsked interrupted.dropLast < (Placement.empty 4).expansions := by
    rw [hexpansions]
    cbv
  have hfirst : Reachable first := .new _ _ _
  have hstart : Key.StartsSearch { code := .character 'p' } := .inl rfl
  have hkeeps : ∀ occurrence ∈ interrupted.tail, occurrence.keepsSearch = true := by decide
  obtain ⟨_, hover⟩ := playback_depends_on_steps hfirst rfl hstart hkeeps
  obtain ⟨_, hconcluded⟩ := hover interrupted.dropLast .tick rfl hbefore
  refine ⟨hasked, ?_⟩
  rw [← hexpansions]
  exact hconcluded (hasked.trans hexpansions.symm)

end Game

end QueensPuzzle.Console
