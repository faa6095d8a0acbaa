import QueensPuzzle.Console.Game
import QueensPuzzle.Text.ControlSequence
import QueensPuzzle.Text.Unsigned

/-! # Options of the command line

What can be told to the program, and how the value of each option is read.
-/

namespace QueensPuzzle.CommandLine

inductive Setting where
  | size
  | engine
  | delay
  | theme
  | verbose
  | help
  | version
  | json
  | limit
  deriving DecidableEq, Repr

namespace Setting

def long : Setting → String
  | .size => "size"
  | .engine => "engine"
  | .delay => "delay-ms"
  | .theme => "theme"
  | .verbose => "verbose"
  | .help => "help"
  | .version => "version"
  | .json => "json"
  | .limit => "limit"

def short? : Setting → Option Char
  | .size => some 's'
  | .engine => some 'e'
  | .verbose => some 'v'
  | .help => some 'h'
  | .version => some 'V'
  | _ => none

/-- What stands for the value in messages; none for a setting without a value. -/
def placeholder? : Setting → Option String
  | .size => some "<SIZE>"
  | .engine => some "<ENGINE>"
  | .delay => some "<DELAY_MS>"
  | .theme => some "<THEME>"
  | .limit => some "<LIMIT>"
  | _ => none

def takesValue (setting : Setting) : Bool := setting.placeholder?.isSome

def text (setting : Setting) : String :=
  match setting.placeholder? with
  | some placeholder => "--" ++ setting.long ++ " " ++ placeholder
  | none => "--" ++ setting.long

end Setting

inductive UsageError where
  | invalidValue (setting : Setting) (value reason : String)
  /-- A value that is none of the names which its option knows. -/
  | unknownName (setting : Setting) (value : String)
  | missingValue (setting : Setting)
  /-- A value for a setting that has none. -/
  | surplusValue (setting : Setting) (value : String)
  | repeated (setting : Setting)
  | unknownArgument (word : String)
  | unknownCommand (word : String)
  | version
  /-- Help was asked for; `about` says what it is on. -/
  | help (about : String)
  deriving DecidableEq, Repr

namespace UsageError

/-- A part of a message in bold type. The reset behind it ends what a control sequence in
the part has left open. -/
def emphasized (part : String) : String := "\x1b[1m" ++ part ++ "\x1b[0m"

def quoted (part : String) : String := "'" ++ emphasized part ++ "'"

def statement : UsageError → String
  | .invalidValue setting value reason =>
      s!"error: invalid value {quoted value} for {quoted setting.text}: {reason}"
  | .unknownName setting value =>
      s!"error: invalid value {quoted value} for {quoted setting.text}"
  | .missingValue setting =>
      s!"error: a value is required for {quoted setting.text} but none was supplied"
  | .surplusValue setting value =>
      s!"error: unexpected value {quoted value} for {quoted setting.text} found" ++
        "; no more were expected"
  | .repeated setting =>
      s!"error: the argument {quoted setting.text} cannot be used multiple times"
  | .unknownArgument word => s!"error: unexpected argument {quoted word} found"
  | .unknownCommand word => s!"error: unrecognized subcommand {quoted word}"
  | .version => "nqueens 0.1.0"
  | .help about => about

def isRequest : UsageError → Bool
  | .version | .help _ => true
  | _ => false

/-- Where to find help, below what is wrong. -/
def hint : String := "\n\nFor more information, try " ++ quoted "--help" ++ ".\n"

def fullMessage (error : UsageError) : String :=
  if error.isRequest then error.statement else error.statement ++ hint

/-- The first line of the message without its control sequences. A word with a line break
in it cuts it short, and a string that the reason leaves open runs on into the hint. -/
def message (error : UsageError) : String :=
  Text.firstLine (Text.withoutControls .ends error.fullMessage)

/-- The line of the message that the program prints. It differs from `message` only where a
line end, a tab or a form feed interrupts a control sequence: in print the sequence goes on
behind it. -/
def printedLine (error : UsageError) : String :=
  Text.firstLine (Text.withoutControls .suspends error.fullMessage)

end UsageError

inductive Task where
  | play
  | solve (json : Bool)
  | trace (limit : Option Nat)
  deriving DecidableEq, Repr

structure Options where
  config : Config
  delay : Nat
  theme : Console.ThemeName
  verbose : Bool
  task : Option Task
  deriving DecidableEq, Repr

/-! ## Values -/

def readSize (text : String) : Except String BoardSize :=
  match Text.readWord text with
  | .error fault => .error fault.message
  | .ok n =>
      match BoardSize.ofNat n with
      | .ok size => .ok size
      | .error fault => .error (fault.message ++ s!" (expected 1..={maxBoardSize})")

structure Draft where
  size : Option BoardSize := none
  engine : Option Engine := none
  delay : Option Nat := none
  theme : Option Console.ThemeName := none
  verbose : Bool := false
  json : Bool := false
  limit : Option Nat := none
  deriving DecidableEq, Repr

namespace Draft

def has (draft : Draft) : Setting → Bool
  | .size => draft.size.isSome
  | .engine => draft.engine.isSome
  | .delay => draft.delay.isSome
  | .theme => draft.theme.isSome
  | .verbose => draft.verbose
  | .json => draft.json
  | .limit => draft.limit.isSome
  | .help | .version => false

def assign (draft : Draft) (setting : Setting) (value : String) : Except UsageError Draft :=
  let invalid (reason : String) : UsageError := .invalidValue setting value reason
  match setting with
  | .size =>
      match readSize value with
      | .ok size => .ok { draft with size := some size }
      | .error reason => .error (invalid reason)
  | .engine =>
      match Engine.ofName value with
      | .ok engine => .ok { draft with engine := some engine }
      | .error fault => .error (invalid fault.message)
  | .delay =>
      match Text.readWord value with
      | .ok delay => .ok { draft with delay := some delay }
      | .error fault => .error (invalid fault.message)
  | .theme =>
      match Console.ThemeName.ofText? value with
      | some theme => .ok { draft with theme := some theme }
      | none => .error (if value.isEmpty then .missingValue setting else .unknownName setting value)
  | .limit =>
      match Text.readWord value with
      | .ok limit => .ok { draft with limit := some limit }
      | .error fault => .error (invalid fault.message)
  | .verbose | .help | .version | .json => .error (.surplusValue setting value)

/-- Makes a setting that takes a value, unless it was made before. -/
def supply (draft : Draft) (setting : Setting) (value : String) : Except UsageError Draft :=
  if draft.has setting then .error (.repeated setting) else draft.assign setting value

/-- Makes a setting without a value. `about` is the help text that applies. -/
def switch (draft : Draft) (about : String) (setting : Setting) : Except UsageError Draft :=
  if draft.has setting then .error (.repeated setting)
  else
    match setting with
    | .verbose => .ok { draft with verbose := true }
    | .json => .ok { draft with json := true }
    | .version => .error .version
    | .help => .error (.help about)
    | .size | .engine | .delay | .theme | .limit => .error (.missingValue setting)

/-- What the settings say, with the defaults for what they leave out. -/
def options (draft : Draft) (task : Option Task) : Options where
  config := ⟨draft.engine.getD default, draft.size.getD default⟩
  delay := draft.delay.getD Console.defaultDelay
  theme := draft.theme.getD default
  verbose := draft.verbose
  task := task

end Draft

end QueensPuzzle.CommandLine
