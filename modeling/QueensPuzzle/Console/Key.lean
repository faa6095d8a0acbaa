/-! # Keys

Key events, and what each of them asks of the program. An event counts whether
the key goes down or up.
-/

namespace QueensPuzzle.Console

inductive KeyCode where
  | up
  | down
  | left
  | right
  | enter
  | escape
  | tab
  | backspace
  | delete
  | home
  | function (number : Nat)
  | character (c : Char)
  /-- Any other key, such as one that pages or one that plays music. -/
  | other
  deriving DecidableEq, Repr

structure Key where
  code : KeyCode
  control : Bool := false
  shift : Bool := false
  alt : Bool := false
  released : Bool := false
  deriving DecidableEq, Repr

inductive Direction where
  | up
  | down
  | left
  | right
  deriving DecidableEq, Repr

inductive Command where
  | quit
  | move (direction : Direction)
  | toggleQueen
  | solve
  | togglePlayback
  | stepOnce
  | nextEngine
  | grow
  | shrink
  | clear
  | nextTheme
  deriving DecidableEq, Repr

/-- What a key asks for without regard to its modifiers. -/
def KeyCode.command? : KeyCode → Option Command
  | .character 'q' | .escape => some .quit
  | .up | .character 'k' => some (.move .up)
  | .down | .character 'j' => some (.move .down)
  | .left | .character 'h' => some (.move .left)
  | .right | .character 'l' => some (.move .right)
  | .enter | .character ' ' => some .toggleQueen
  | .character 's' => some .solve
  | .character 'p' => some .togglePlayback
  | .character 'n' => some .stepOnce
  | .character 'e' => some .nextEngine
  | .character '+' | .character '=' => some .grow
  | .character '-' => some .shrink
  | .character 'c' => some .clear
  | .character 't' => some .nextTheme
  | _ => none

/-- What a key event asks for. With the control key, `c` quits; other modifiers change
nothing. -/
def Key.command? (key : Key) : Option Command :=
  if key.control && key.code == .character 'c' then some .quit else key.code.command?

end QueensPuzzle.Console
