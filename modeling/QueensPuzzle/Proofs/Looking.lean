import QueensPuzzle.Proofs.Board.Requests
import QueensPuzzle.Proofs.Console.Schedule
import QueensPuzzle.Proofs.Session.Stepping
import QueensPuzzle.Session.Editing

/-! # Looking leaves no trace

To look at a board takes cells from a cache, and the cache is part of what the next toggle starts
from. But a cache gives the cell of its size whatever it was asked for, so the game and both kinds
of sessions are alike before and after somebody has looked: what they answer, then and ever after,
is what they would have answered.
-/

namespace QueensPuzzle

/-- Something that answers requests one after the other. Some of the requests only look at it. -/
structure Machine (State Request Answer : Type) where
  respond : State → Request → Answer × State
  looks : Request → Bool

namespace Machine

variable {State Request Answer : Type} (machine : Machine State Request Answer)

/-- The state that requests lead to. -/
def after (state : State) (requests : List Request) : State :=
  requests.foldl (fun state request => (machine.respond state request).2) state

/-- The answers to all requests of a run. -/
def answers : State → List Request → List Answer
  | _, [] => []
  | state, request :: requests =>
      let (answer, next) := machine.respond state request
      answer :: answers next requests

/-- Whatever looks are put in anywhere in a run, or taken out of it, all that is asked for behind
them is answered the same. -/
def LooksUnseen (start : State) : Prop :=
  ∀ before other : List Request,
    before.filter (!machine.looks ·) = other.filter (!machine.looks ·) →
      ∀ behind, machine.answers (machine.after start before) behind =
        machine.answers (machine.after start other) behind

/-- Alike states answer alike and stay alike, and a look at one of them makes no difference. -/
structure Blind (Alike : State → State → Prop) : Prop where
  answer_eq : ∀ {a b : State} (request : Request), Alike a b →
    (machine.respond a request).1 = (machine.respond b request).1
  next : ∀ {a b : State} (request : Request), Alike a b →
    Alike (machine.respond a request).2 (machine.respond b request).2
  look : ∀ {a b : State} (request : Request), machine.looks request = true → Alike a b →
    Alike (machine.respond a request).2 b

namespace Blind

variable {machine} {Alike : State → State → Prop} {a b : State}

theorem after_filter (hblind : machine.Blind Alike) (h : Alike a b) (requests : List Request) :
    Alike (machine.after a requests) (machine.after b (requests.filter (!machine.looks ·))) := by
  induction requests generalizing a b with
  | nil => exact h
  | cons request requests ih =>
      cases hlooks : machine.looks request with
      | true =>
          rw [List.filter_cons_of_neg (by simp [hlooks])]
          exact ih (hblind.look request hlooks h)
      | false =>
          rw [List.filter_cons_of_pos (by simp [hlooks])]
          exact ih (hblind.next request h)

theorem answers_eq (hblind : machine.Blind Alike) (h : Alike a b) (requests : List Request) :
    machine.answers a requests = machine.answers b requests := by
  induction requests generalizing a b with
  | nil => rfl
  | cons request requests ih =>
      have hrest := ih (hblind.next request h)
      exact congrArg₂ List.cons (hblind.answer_eq request h) hrest

theorem looksUnseen (hblind : machine.Blind Alike) {start : State} (h : Alike start start) :
    machine.LooksUnseen start := by
  intro before other hsame behind
  have hbefore := hblind.after_filter h before
  have hother := hblind.after_filter h other
  rw [← hsame] at hother
  exact (hblind.answers_eq hbefore behind).trans (hblind.answers_eq hother behind).symm

end Blind

end Machine

/-! ## The game -/

namespace Console

open Search

/-- What can be seen of what happens: how a key is taken, what is on a square, or what is drawn. -/
inductive Reply where
  | reaction (events : List Event) (quits : Bool)
  | occupancy (occupancy : Occupancy)
  | frame (outputs : List Output)

namespace Game

def reply (game : Game) : Occurrence → Reply
  | .press key => .reaction (game.press key).events (game.press key).quits
  | .tick => .reaction game.tick.2 false
  | .look square => .occupancy (game.occupancyAt square).1
  | .draw width height => .frame (game.frame width height).1

/-- The game as though no cell had been asked for. -/
def uncached (game : Game) : Game := { game with cells := .new game.rows }

/-- With each reply comes all that there is of the game behind it, but for the cells at hand. -/
def machine : Machine Game Occurrence (Reply × Game) where
  respond game occurrence :=
    ((game.reply occurrence, (game.receive occurrence).uncached), game.receive occurrence)
  looks
    | .look _ | .draw _ _ => true
    | .press _ | .tick => false

/-! ### Other cells at hand -/

section Cells

variable (game : Game) (cells : CellCache)

theorem startSearch_with_cells :
    ({ game with cells }).startSearch = { game.startSearch with cells } := by
  rw [startSearch_eq, startSearch_eq]
  rfl

theorem togglePlayback_with_cells :
    ({ game with cells }).togglePlayback = { game.togglePlayback with cells } := by
  unfold togglePlayback
  rw [startSearch_with_cells]
  dsimp only
  split
  · rfl
  · split <;> rfl

theorem solve_with_cells :
    ({ game with cells }).solve = ({ game.solve.1 with cells }, game.solve.2) := by
  unfold solve rows
  cases hqueens : (game.config.engine.solve game.config.boardSize.rows).queens with
  | some queens => simp only [hqueens]
  | none => simp only [hqueens]

theorem showCandidate_with_cells (walk : Walk Placement) :
    ({ game with cells }).showCandidate walk = { game.showCandidate walk with cells } := by
  unfold showCandidate
  cases walk.candidate <;> rfl

theorem finish_with_cells (walk : Walk Placement) :
    ({ game with cells }).finish walk =
      ({ (game.finish walk).1 with cells }, (game.finish walk).2) := by
  unfold finish
  cases walk.solution.isSome <;> rfl

theorem advance_with_cells (walk : Walk Placement) :
    ({ game with cells }).advance walk =
      ({ (game.advance walk).1 with cells }, (game.advance walk).2) := by
  cases hfinal : walk.isFinal with
  | true =>
      simp only [advance, hfinal, if_true]
      exact finish_with_cells { game with pending := none } cells walk
  | false =>
      cases hadvance : walk.advance Placement.tree with
      | error fault =>
          simp only [advance, hfinal, hadvance]
          rfl
      | ok next =>
          let taken : Game := { game with steps := next.advances, pending := none }
          have hshown := showCandidate_with_cells taken cells next
          cases hnext : next.isFinal with
          | true =>
              have hfinish := finish_with_cells (taken.showCandidate next) cells next
              simp only [advance, hfinal, hadvance, hnext, if_true]
              rw [hshown, hfinish]
              rfl
          | false =>
              simp only [advance, hfinal, hadvance, hnext]
              rw [hshown]
              rfl

theorem started_with_cells : ({ game with cells }).started = { game.started with cells } := by
  unfold started
  by_cases hpending : game.pending.isSome = true
  · rw [if_pos hpending, if_pos hpending]
  · rw [if_neg hpending, if_neg hpending]
    exact startSearch_with_cells game cells

theorem stepOnce_with_cells :
    ({ game with cells }).stepOnce = ({ game.stepOnce.1 with cells }, game.stepOnce.2) := by
  rw [stepOnce_eq, stepOnce_eq, started_with_cells]
  exact advance_with_cells game.started cells game.nextWalk

variable {game cells}

/-- A toggle takes the cell under the cursor, which is the same from all caches of one size. -/
theorem toggleQueen_with_cells (hgame : game.cells.Serves game.rows)
    (hcells : cells.Serves game.rows) :
    ∃ kept, ({ game with cells }).toggleQueen = { game.toggleQueen with cells := kept } := by
  let kept := (CellCache.get game.cursor.row game.cursor.column cells).2
  let other : Game := { game.toggled with cells := kept }
  have hother : ({ game with cells }).toggleQueen =
      if game.position.occupancy (.of game.cursor.row game.cursor.column game.rows) = .blocked then
        { other with message := some .squareAttacked }
      else if game.toggled.position.queenCount = game.rows then
        { other with status := .solved, message := some .solvedByHand }
      else other := @toggleQueen_eq { game with cells } hcells
  refine ⟨kept, ?_⟩
  -- Both equations ask the same questions, so one split serves for the two.
  rw [hother, toggleQueen_eq hgame]
  split
  · rfl
  · split
    · rfl
    · rfl

theorem perform_with_cells (hgame : game.cells.Serves game.rows) (hcells : cells.Serves game.rows)
    (command : Command) :
    ∃ kept, ({ game with cells }).perform command =
      { game.perform command with game := { (game.perform command).game with cells := kept } } := by
  cases command with
  | quit => exact ⟨cells, rfl⟩
  | move direction => exact ⟨cells, rfl⟩
  | toggleQueen =>
      obtain ⟨kept, htoggled⟩ := toggleQueen_with_cells hgame hcells
      exact ⟨kept, by rw [perform, htoggled]; rfl⟩
  | solve => exact ⟨cells, by rw [perform, solve_with_cells]; rfl⟩
  | togglePlayback => exact ⟨cells, by rw [perform, togglePlayback_with_cells]; rfl⟩
  | stepOnce =>
      have hstep := stepOnce_with_cells { game with status := .paused } cells
      exact ⟨cells, by rw [perform, hstep]; rfl⟩
  | nextEngine => exact ⟨cells, rfl⟩
  | grow => exact ⟨.new game.config.boardSize.grow.rows, rfl⟩
  | shrink => exact ⟨.new game.config.boardSize.shrink.rows, rfl⟩
  | clear => exact ⟨cells, rfl⟩
  | nextTheme => exact ⟨cells, rfl⟩

theorem press_with_cells (hgame : game.cells.Serves game.rows) (hcells : cells.Serves game.rows)
    (key : Key) :
    ∃ kept, ({ game with cells }).press key =
      { game.press key with game := { (game.press key).game with cells := kept } } := by
  unfold press
  cases key.command? with
  | none => exact ⟨cells, rfl⟩
  | some command => exact perform_with_cells hgame hcells command

theorem tick_with_cells (game : Game) (cells : CellCache) :
    ({ game with cells }).tick = ({ game.tick.1 with cells }, game.tick.2) := by
  unfold tick isPlaying
  by_cases hplaying : (game.status == .searching) = true
  · rw [if_pos hplaying, if_pos hplaying]
    exact stepOnce_with_cells game cells
  · rw [if_neg hplaying, if_neg hplaying]

theorem occupancyAt_with_cells (hgame : game.cells.Serves game.rows)
    (hcells : cells.Serves game.rows) (square : Square) :
    (({ game with cells }).occupancyAt square).1 = (game.occupancyAt square).1 := by
  have hcell : (CellCache.get square.row square.column cells).1 =
      (CellCache.get square.row square.column game.cells).1 := by
    rw [hcells.get_fst, hgame.get_fst]
  exact congrArg game.position.occupancy hcell

theorem frame_with_cells (hgame : game.cells.Serves game.rows) (hcells : cells.Serves game.rows)
    (width height : Nat) :
    (({ game with cells }).frame width height).1 = (game.frame width height).1 := by
  have hdiagram : ({ game with cells }).diagram.1 = game.diagram.1 := by
    show (game.position.describe cells).1 = (game.position.describe game.cells).1
    rw [hcells.describe_fst, hgame.describe_fst]
  unfold frame
  simp only [hdiagram]
  rfl

theorem reply_with_cells (hgame : game.cells.Serves game.rows) (hcells : cells.Serves game.rows)
    (occurrence : Occurrence) : ({ game with cells }).reply occurrence = game.reply occurrence := by
  cases occurrence with
  | press key =>
      obtain ⟨kept, hpress⟩ := press_with_cells hgame hcells key
      rw [reply, reply, hpress]
  | tick => rw [reply, reply, tick_with_cells]
  | look square => exact congrArg Reply.occupancy (occupancyAt_with_cells hgame hcells square)
  | draw width height => exact congrArg Reply.frame (frame_with_cells hgame hcells width height)

theorem receive_with_cells (hgame : game.cells.Serves game.rows) (hcells : cells.Serves game.rows)
    (occurrence : Occurrence) :
    ∃ kept, ({ game with cells }).receive occurrence =
      { game.receive occurrence with cells := kept } := by
  cases occurrence with
  | press key =>
      obtain ⟨kept, hpress⟩ := press_with_cells hgame hcells key
      exact ⟨kept, congrArg Reaction.game hpress⟩
  | tick => exact ⟨cells, congrArg Prod.fst (tick_with_cells game cells)⟩
  | look square => exact ⟨_, rfl⟩
  | draw width height => exact ⟨_, rfl⟩

theorem receive_of_looks {occurrence : Occurrence} (h : machine.looks occurrence = true) :
    ∃ kept, game.receive occurrence = { game with cells := kept } := by
  cases occurrence with
  | press key => cases h
  | tick => cases h
  | look square => exact ⟨_, rfl⟩
  | draw width height => exact ⟨_, rfl⟩

end Cells

/-- Two games that come up and are the same, but for the cells at hand. -/
structure Alike (game other : Game) : Prop where
  left : Reachable game
  right : Reachable other
  eq_with_cells : ∃ cells, game = { other with cells }

namespace Alike

variable {game other : Game}

theorem reply_eq (h : Alike game other) (occurrence : Occurrence) :
    game.reply occurrence = other.reply occurrence := by
  obtain ⟨hgame, hother, cells, rfl⟩ := h
  exact reply_with_cells hother.sound.grounded.cells hgame.sound.grounded.cells occurrence

theorem receive (h : Alike game other) (occurrence : Occurrence) :
    Alike (game.receive occurrence) (other.receive occurrence) := by
  obtain ⟨hgame, hother, cells, rfl⟩ := h
  exact ⟨hgame.receive occurrence, hother.receive occurrence,
    receive_with_cells hother.sound.grounded.cells hgame.sound.grounded.cells occurrence⟩

theorem uncached_eq (h : Alike game other) : game.uncached = other.uncached := by
  obtain ⟨_, _, cells, rfl⟩ := h
  rfl

end Alike

theorem blind : machine.Blind Alike where
  answer_eq occurrence h := Prod.ext (h.reply_eq occurrence) (h.receive occurrence).uncached_eq
  next occurrence h := h.receive occurrence
  look := by
    rintro game other occurrence hlooks ⟨hgame, hother, cells, rfl⟩
    exact ⟨hgame.receive occurrence, hother, receive_of_looks hlooks⟩

end Game

end Console

namespace Session

/-! ## Editing sessions -/

namespace Editing

/-- What a session can be asked for, or be asked to do. -/
inductive Request where
  | toggle (row column : Nat)
  | clear
  | board
  | size
  | queenCount
  | isSolved

inductive Answer where
  | done
  | occupancy (before : Occupancy)
  | diagram (diagram : Diagram)
  | number (count : Nat)
  | verdict (holds : Bool)

def machine : Machine Editing Request Answer where
  respond session
    | .toggle row column =>
        let (before, next) := session.toggle row column
        (.occupancy before, next)
    | .clear => (.done, session.clear)
    | .board =>
        let (diagram, next) := session.board
        (.diagram diagram, next)
    | .size => (.number session.size, session)
    | .queenCount => (.number session.queenCount, session)
    | .isSolved => (.verdict session.isSolved, session)
  looks
    | .toggle _ _ | .clear => false
    | .board | .size | .queenCount | .isSolved => true

/-- The same position on boards of one size. -/
structure Alike (size : Nat) (session other : Editing) : Prop where
  left : session.cells.Serves size
  right : other.cells.Serves size
  position_eq : session.position = other.position

variable {size : Nat} {session other : Editing}

theorem toggle_eq (h : session.cells.Serves size) (row column : Nat) :
    session.toggle row column =
      if row < size ∧ column < size then
        let cell := Cell.of row column size
        (session.position.occupancy cell,
          ⟨(session.position.toggle cell).2, (CellCache.get row column session.cells).2⟩)
      else (.blocked, session) := by
  rw [toggle, Editing.size, h.size_eq, ← h.get_fst]
  rfl

theorem Alike.toggle (h : Alike size session other) (row column : Nat) :
    (session.toggle row column).1 = (other.toggle row column).1 ∧
      Alike size (session.toggle row column).2 (other.toggle row column).2 := by
  rw [toggle_eq h.left, toggle_eq h.right, h.position_eq]
  by_cases hboard : row < size ∧ column < size
  · simp only [if_pos hboard, true_and]
    exact ⟨h.left.get_snd row column, h.right.get_snd row column, rfl⟩
  · simp only [if_neg hboard, true_and]
    exact h

theorem Alike.board (h : Alike size session other) :
    session.board.1 = other.board.1 ∧ Alike size session.board.2 other ∧
      Alike size session.board.2 other.board.2 := by
  have hdiagram : session.board.1 = other.board.1 := by
    show (session.position.describe session.cells).1 = (other.position.describe other.cells).1
    rw [h.left.describe_fst, h.right.describe_fst, h.position_eq]
  have hleft := h.left.describe session.position
  exact ⟨hdiagram, ⟨hleft, h.right, h.position_eq⟩,
    hleft, h.right.describe other.position, h.position_eq⟩

theorem Alike.size_eq (h : Alike size session other) : session.size = other.size :=
  h.left.size_eq.trans h.right.size_eq.symm

theorem Alike.queenCount_eq (h : Alike size session other) :
    session.queenCount = other.queenCount := congrArg Position.queenCount h.position_eq

theorem blind (size : Nat) : machine.Blind (Alike size) where
  answer_eq := by
    intro session other request h
    cases request with
    | toggle row column => exact congrArg Answer.occupancy (h.toggle row column).1
    | clear => rfl
    | board => exact congrArg Answer.diagram h.board.1
    | size => exact congrArg Answer.number h.size_eq
    | queenCount => exact congrArg Answer.number h.queenCount_eq
    | isSolved =>
        show Answer.verdict session.isSolved = .verdict other.isSolved
        rw [isSolved, isSolved, h.size_eq, h.queenCount_eq]
  next := by
    intro session other request h
    cases request with
    | toggle row column => exact (h.toggle row column).2
    | clear => exact ⟨h.left, h.right, rfl⟩
    | board => exact h.board.2.2
    | size | queenCount | isSolved => exact h
  look := by
    intro session other request hlooks h
    cases request with
    | toggle row column => cases hlooks
    | clear => cases hlooks
    | board => exact h.board.2.1
    | size | queenCount | isSolved => exact h

end Editing

/-! ## Stepping sessions -/

namespace Stepping

/-- What a session can be asked for, or be asked to do. -/
inductive Request where
  | advance
  | runFor (budget : Float) (now : Nat → Float)
  | board
  | isFinal
  | steps
  | candidate
  | events

inductive Answer where
  | advanced (result : Except Fault Unit)
  | ran (taken readings : Nat) (events : List Event)
  | diagram (diagram : Diagram)
  | verdict (holds : Bool)
  | number (count : Nat)
  | squares (queens : Option (List Square))
  | events (events : List Event)

def machine : Machine Stepping Request Answer where
  respond session
    | .advance =>
        let (result, next) := session.advance
        (.advanced result, next)
    | .runFor budget now =>
        let stretch := session.runFor budget now
        (.ran stretch.taken stretch.readings stretch.events, stretch.session)
    | .board =>
        let (diagram, next) := session.board
        (.diagram diagram, next)
    | .isFinal => (.verdict session.isFinal, session)
    | .steps => (.number session.steps, session)
    | .candidate => (.squares session.candidate, session)
    | .events => (.events session.events, session)
  looks
    | .advance | .runFor _ _ => false
    | .board | .isFinal | .steps | .candidate | .events => true

section Cells

variable (session : Stepping) (cells : CellCache)

theorem advance_with_cells :
    ({ session with cells }).advance =
      (session.advance.1, { session.advance.2 with cells }) := by
  cases hwalk : session.walk with
  | none => simp only [Stepping.advance, hwalk]
  | some walk =>
      cases hfinal : walk.isFinal with
      | true => simp only [Stepping.advance, hwalk, hfinal, if_true]
      | false =>
          cases hadvance : walk.advance Placement.tree with
          | ok next => simp only [Stepping.advance, hwalk, hfinal, hadvance]; rfl
          | error fault => simp only [Stepping.advance, hwalk, hfinal, hadvance]; rfl

/-- A stretch in a session with other cells at hand. -/
def Stretch.withCells (stretch : Stretch) : Stretch :=
  { stretch with session := { stretch.session with cells } }

/-- Each turn of the loop moves the search only, so the cells that it began with stay at hand. -/
theorem runUntil_withCells (deadline : Float) (now : Nat → Float) (limit : Nat)
    (stretch : Stretch) :
    runUntil deadline now limit (stretch.withCells cells) =
      (runUntil deadline now limit stretch).withCells cells := by
  induction limit generalizing stretch with
  | zero => rfl
  | succ limit ih =>
      cases hfinal : stretch.session.isFinal with
      | true =>
          have hother : (stretch.withCells cells).session.isFinal = true := hfinal
          rw [runUntil_of_isFinal hfinal, runUntil_of_isFinal hother]
      | false =>
          have hother : (stretch.withCells cells).session.isFinal = false := hfinal
          cases hstep : stretch.session.advance with
          | mk result next =>
              have hsame : (stretch.withCells cells).session.advance =
                  (result, { next with cells }) := by
                have hadvance := advance_with_cells stretch.session cells
                rw [hstep] at hadvance
                exact hadvance
              cases result with
              | error fault =>
                  rw [runUntil, runUntil, hother, hfinal, hsame, hstep]
                  rfl
              | ok =>
                  have hstepped : (stretch.withCells cells).step { next with cells } =
                      (stretch.step next).withCells cells := rfl
                  rw [runUntil_succ hfinal hstep, runUntil_succ hother hsame, hstepped, ih,
                    apply_ite (Stretch.withCells cells)]
                  rfl

theorem runFor_with_cells (budget : Float) (now : Nat → Float) :
    ({ session with cells }).runFor budget now =
      (session.runFor budget now).withCells cells := by
  have hrun := runUntil_withCells cells (now 0 + budget) now (Placement.empty session.size).reach
    ⟨session, 0, 1, []⟩
  exact congrArg (fun stretch : Stretch => { stretch with events := stretch.events.reverse }) hrun

/-- With its own cells at hand a session is what it is, so these are kept as well. -/
theorem cells_advance : session.advance.2.cells = session.cells :=
  congrArg (·.2.cells) (advance_with_cells session session.cells)

theorem cells_runFor (budget : Float) (now : Nat → Float) :
    (session.runFor budget now).session.cells = session.cells :=
  congrArg (·.session.cells) (runFor_with_cells session session.cells budget now)

variable {session cells} {size : Nat}

theorem board_with_cells (hsession : session.cells.Serves size) (hcells : cells.Serves size) :
    ({ session with cells }).board.1 = session.board.1 := by
  unfold Stepping.board
  exact (hcells.describe_fst _).trans (hsession.describe_fst _).symm

theorem cells_board (h : session.cells.Serves size) : session.board.2.cells.Serves size :=
  h.describe _

end Cells

/-- The same search on boards of one size. -/
structure Alike (size : Nat) (session other : Stepping) : Prop where
  left : session.cells.Serves size
  right : other.cells.Serves size
  eq_with_cells : ∃ cells, session = { other with cells }

namespace Alike

variable {size : Nat} {session other : Stepping}

theorem advance (h : Alike size session other) :
    session.advance.1 = other.advance.1 ∧ Alike size session.advance.2 other.advance.2 := by
  obtain ⟨hsession, hother, cells, rfl⟩ := h
  obtain ⟨hresult, hnext⟩ := Prod.ext_iff.mp (advance_with_cells other cells)
  refine ⟨hresult, ?_, ?_, cells, hnext⟩
  · rwa [cells_advance]
  · rwa [cells_advance]

theorem runFor (h : Alike size session other) (budget : Float) (now : Nat → Float) :
    (∃ cells, session.runFor budget now = (other.runFor budget now).withCells cells) ∧
      Alike size (session.runFor budget now).session (other.runFor budget now).session := by
  obtain ⟨hsession, hother, cells, rfl⟩ := h
  have hstretch := runFor_with_cells other cells budget now
  refine ⟨⟨cells, hstretch⟩, ?_, ?_, cells, congrArg Stretch.session hstretch⟩
  · rwa [cells_runFor]
  · rwa [cells_runFor]

theorem board (h : Alike size session other) :
    session.board.1 = other.board.1 ∧ Alike size session.board.2 other ∧
      Alike size session.board.2 other.board.2 := by
  obtain ⟨hsession, hother, cells, rfl⟩ := h
  have hleft := cells_board hsession
  exact ⟨board_with_cells hother hsession, ⟨hleft, hother, _, rfl⟩,
    hleft, cells_board hother, _, rfl⟩

end Alike

theorem blind (size : Nat) : machine.Blind (Alike size) where
  answer_eq := by
    intro session other request h
    cases request with
    | advance => exact congrArg Answer.advanced h.advance.1
    | runFor budget now =>
        obtain ⟨⟨cells, hstretch⟩, _⟩ := h.runFor budget now
        show Answer.ran _ _ _ = _
        rw [hstretch]
        rfl
    | board => exact congrArg Answer.diagram h.board.1
    | isFinal | steps | candidate | events =>
        obtain ⟨_, _, cells, rfl⟩ := h
        rfl
  next := by
    intro session other request h
    cases request with
    | advance => exact h.advance.2
    | runFor budget now => exact (h.runFor budget now).2
    | board => exact h.board.2.2
    | isFinal | steps | candidate | events => exact h
  look := by
    intro session other request hlooks h
    cases request with
    | advance => cases hlooks
    | runFor budget now => cases hlooks
    | board => exact h.board.2.1
    | isFinal | steps | candidate | events => exact h

end Stepping

end Session

/-! ## Caches, games and sessions -/

open Console Session

/-- A cache that was asked for cells and pictures in any order gives each cell and each picture as
though it were new, and keeps one cell for each square that was asked for, where a picture asks for
every square of the board. So looks at a game or at a session are unseen. -/
theorem looks_unseen (size : Nat) :
    (∀ requests : List CellCache.Request,
      let cache := requests.foldl CellCache.serve (.new size)
      let asked := requests.flatMap (·.squares size)
      (∀ row column, (CellCache.get row column cache).1 = .of row column size) ∧
      (∀ position : Position, (position.describe cache).1 = position.diagram size) ∧
      cache.count = asked.toFinset.card ∧ (cache.isEmpty = true ↔ asked = [])) ∧
    ((CellCache.boardSquares size).Nodup ∧ (CellCache.boardSquares size).length = size * size ∧
      ∀ square, square ∈ CellCache.boardSquares size ↔ square.row < size ∧ square.column < size) ∧
    (∀ config theme delay, Game.machine.LooksUnseen (.new config theme delay)) ∧
    Editing.machine.LooksUnseen (.new size) ∧ Stepping.machine.LooksUnseen (.new size) := by
  have hserves := CellCache.serves_new size
  refine ⟨?_, ⟨CellCache.nodup_boardSquares size, CellCache.length_boardSquares size,
    fun square => CellCache.mem_boardSquares⟩, ?_, ?_, ?_⟩
  · intro requests cache asked
    have hholds : cache.Holds size asked := (CellCache.Holds.new size).foldl_serve requests
    exact ⟨hholds.serves.get_fst, hholds.serves.describe_fst, hholds.count_eq, hholds.isEmpty_iff⟩
  · intro config theme delay
    have hnew : Game.Reachable (.new config theme delay) := .new config theme delay
    exact Game.blind.looksUnseen ⟨hnew, hnew, _, rfl⟩
  · exact (Editing.blind size).looksUnseen ⟨hserves, hserves, rfl⟩
  · exact (Stepping.blind size).looksUnseen ⟨hserves, hserves, _, rfl⟩

/-- A square off the board and a picture of two rows make five cells, however often they are asked
for. In a game and in both kinds of sessions looks are put in at one place and taken out at
another. -/
theorem looks_unseen_two :
    ([.cell ⟨7, 1⟩, .picture .empty, .cell ⟨0, 1⟩].foldl CellCache.serve (.new 2)).count = 5 ∧
    (let first : Game := .new ⟨.astar, { rows := 2 }⟩ default defaultDelay
      let step : Occurrence := .press { code := .character 'n' }
      Game.machine.answers (Game.machine.after first [.draw 80 24, step]) [.tick, .draw 80 24] =
        Game.machine.answers (Game.machine.after first [step, .look ⟨9, 9⟩])
          [.tick, .draw 80 24]) ∧
    Editing.machine.answers (Editing.machine.after (.new 2) [.board, .toggle 0 0])
        [.toggle 1 1, .board] =
      Editing.machine.answers (Editing.machine.after (.new 2) [.toggle 0 0, .isSolved])
        [.toggle 1 1, .board] ∧
    Stepping.machine.answers (Stepping.machine.after (.new 2) [.advance, .board, .advance])
        [.steps, .board] =
      Stepping.machine.answers (Stepping.machine.after (.new 2) [.advance, .advance])
        [.steps, .board] := by
  obtain ⟨hcache, _, hgame, hediting, hstepping⟩ := looks_unseen 2
  obtain ⟨_, _, hcount, _⟩ := hcache [.cell ⟨7, 1⟩, .picture .empty, .cell ⟨0, 1⟩]
  refine ⟨?_, ?_, ?_, ?_⟩
  · rw [hcount]
    decide
  · intro first step
    apply hgame
    rfl
  · apply hediting
    rfl
  · apply hstepping
    rfl

end QueensPuzzle
