import QueensPuzzle.Console.Frame

/-! # Playing the game

The game draws a frame, waits for an event, and ticks when the timer is due. What
a terminal does in the meantime is given as a list of moments, one for each turn;
its troubles are texts that it gives.
-/

namespace QueensPuzzle.Console

inductive Happening where
  | quiet
  | key (key : Key)
  /-- An event that the game does not look at. -/
  | ignored
  | trouble (text : String)
  deriving DecidableEq, Repr

/-- One turn of the game. -/
structure Moment where
  happening : Happening
  /-- Whether the timer is due at the end of the turn. -/
  due : Bool
  deriving DecidableEq, Repr

/-- What was played. -/
structure Record where
  outputs : List Output
  events : List Event
  /-- The trouble that ended it, if it was not the player. -/
  trouble : Option String

/-- A terminal's width and height, or its trouble to tell them. -/
abbrev ScreenSize := Except String (Nat × Nat)

/-- How one turn ends. -/
inductive TurnEnd where
  | goesOn (game : Game)
  | quits
  | fails (trouble : String)

/-- One turn: draws, takes what happens, and ticks when the timer is due. -/
def turn (size : ScreenSize) (moment : Moment) (game : Game) :
    List Output × List Event × TurnEnd :=
  match size with
  | .error trouble => ([], [], .fails trouble)
  | .ok (width, height) =>
      let (outputs, game) := game.frame width height
      let reaction : Except String Game.Reaction :=
        match moment.happening with
        | .quiet | .ignored => .ok { game }
        | .key key => .ok (game.press key)
        | .trouble text => .error text
      match reaction with
      | .error trouble => (outputs, [], .fails trouble)
      | .ok reaction =>
          if reaction.quits then (outputs, reaction.events, .quits)
          else if moment.due then
            let (game, events) := reaction.game.tick
            (outputs, reaction.events ++ events, .goesOn game)
          else (outputs, reaction.events, .goesOn reaction.game)

/-- Turn after turn, until the player quits, a trouble comes, or the moments are over. -/
def turns (size : ScreenSize) : List Moment → Game → Record
  | [], _ => ⟨[], [], none⟩
  | moment :: moments, game =>
      let (outputs, events, ending) := turn size moment game
      match ending with
      | .quits => ⟨outputs, events, none⟩
      | .fails trouble => ⟨outputs, events, some trouble⟩
      | .goesOn game =>
          let rest := turns size moments game
          ⟨outputs ++ rest.outputs, events ++ rest.events, rest.trouble⟩

/-- The whole game, on a screen of its own that is left in the end. -/
def play (size : ScreenSize) (moments : List Moment) (game : Game) : Record :=
  let record := turns size moments game
  { record with outputs := .enterAlternateScreen :: (record.outputs ++ [.leaveAlternateScreen]) }

end QueensPuzzle.Console
