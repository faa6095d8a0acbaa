import QueensPuzzle.Text.Inspect

/-! # Terminal output

What a program sends to a terminal, and the codes that stand for it.
-/

namespace QueensPuzzle.Console

inductive Color where
  | black
  | white
  | grey
  | red
  | green
  | yellow
  | blue
  | rgb (red green blue : Nat)
  deriving DecidableEq, Repr

namespace Color

/-- The parameters by which a terminal knows the color. -/
def parameters : Color → String
  | .black => "5;0"
  | .white => "5;15"
  | .grey => "5;7"
  | .red => "5;9"
  | .green => "5;10"
  | .yellow => "5;11"
  | .blue => "5;12"
  | .rgb r g b => s!"2;{r};{g};{b}"

def inspect : Color → String
  | .black => "Black"
  | .white => "White"
  | .grey => "Grey"
  | .red => "Red"
  | .green => "Green"
  | .yellow => "Yellow"
  | .blue => "Blue"
  | .rgb r g b => Text.parts "Rgb" [("r", toString r), ("g", toString g), ("b", toString b)]

end Color

inductive Output where
  | hideCursor
  | showCursor
  | clear
  /-- Column and row of the next character, counted from 0. -/
  | moveTo (x y : Nat)
  | foreground (color : Color)
  | background (color : Color)
  | resetColor
  | print (text : String)
  | enterAlternateScreen
  | leaveAlternateScreen
  deriving DecidableEq, Repr

namespace Output

/-- A control sequence. -/
def sequence (body : String) : String := "\x1b[" ++ body

def code : Output → String
  | .hideCursor => sequence "?25l"
  | .showCursor => sequence "?25h"
  | .clear => sequence "2J"
  | .moveTo x y => sequence s!"{y + 1};{x + 1}H"
  | .foreground color => sequence ("38;" ++ color.parameters ++ "m")
  | .background color => sequence ("48;" ++ color.parameters ++ "m")
  | .resetColor => sequence "0m"
  | .print text => text
  | .enterAlternateScreen => sequence "?1049h"
  | .leaveAlternateScreen => sequence "?1049l"

def codes (outputs : List Output) : String := String.join (outputs.map code)

end Output

end QueensPuzzle.Console
