import QueensPuzzle.Console.Terminal

/-! # Themes

The colors of the terminal program, under three names.
-/

namespace QueensPuzzle.Console

inductive ThemeName where
  | dark
  | light
  | highContrast
  deriving DecidableEq, Repr

namespace ThemeName

instance : Inhabited ThemeName := ⟨.dark⟩

def all : List ThemeName := [.dark, .light, .highContrast]

def text : ThemeName → String
  | .dark => "dark"
  | .light => "light"
  | .highContrast => "high-contrast"

/-- The theme after this one, in a circle. -/
def next : ThemeName → ThemeName
  | .dark => .light
  | .light => .highContrast
  | .highContrast => .dark

def ofText? (text : String) : Option ThemeName := all.find? (·.text == text)

/-- As `ofText?`, where capital letters count as small ones. -/
def ofAnyCase? (text : String) : Option ThemeName := ofText? (text.map Char.toLower)

/-- What is said of a text that names no theme. -/
def unknownMessage (text : String) : String := "invalid variant: " ++ text

end ThemeName

structure Theme where
  background : Color
  foreground : Color
  border : Color
  lightSquare : Color
  darkSquare : Color
  queen : Color
  /-- Marks on squares that can take a queen. -/
  free : Color
  cursor : Color
  success : Color
  error : Color
  info : Color
  /-- Names of keys, and messages. -/
  key : Color
  deriving DecidableEq, Repr

namespace Theme

def dark : Theme where
  background := .rgb 20 22 30
  foreground := .rgb 230 230 240
  border := .rgb 130 140 170
  lightSquare := .rgb 70 75 90
  darkSquare := .rgb 35 40 55
  queen := .rgb 255 90 90
  free := .rgb 140 150 180
  cursor := .rgb 70 90 140
  success := .rgb 90 255 130
  error := .rgb 255 90 90
  info := .rgb 160 165 185
  key := .rgb 255 210 100

def light : Theme where
  background := .rgb 248 248 252
  foreground := .rgb 30 30 40
  border := .rgb 60 60 80
  lightSquare := .rgb 240 217 181
  darkSquare := .rgb 181 136 99
  queen := .rgb 200 20 20
  free := .rgb 90 90 110
  cursor := .rgb 180 200 255
  success := .rgb 40 160 60
  error := .rgb 220 50 50
  info := .rgb 90 90 110
  key := .rgb 200 120 20

def highContrast : Theme where
  background := .black
  foreground := .white
  border := .white
  lightSquare := .grey
  darkSquare := .black
  queen := .red
  free := .yellow
  cursor := .blue
  success := .green
  error := .red
  info := .grey
  key := .yellow

end Theme

def ThemeName.theme : ThemeName → Theme
  | .dark => .dark
  | .light => .light
  | .highContrast => .highContrast

end QueensPuzzle.Console
