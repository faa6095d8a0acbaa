import QueensPuzzle.CommandLine.Options

/-! # Words of the command line

A command line is a list of words. Options stand in front of the name of a task,
the options of the task behind it. An option is a word behind two dashes or a
letter behind one; letters may be put together, and a value may be a word of its
own, or be attached with or without an equals sign.

A value that is a word of its own is looked at when the next setting is made or
when all words were read, so a word that nobody knows is reported before it.
-/

namespace QueensPuzzle.CommandLine

inductive Level where
  | program
  | play
  | solve
  | trace
  deriving DecidableEq, Repr

namespace Level

def settings : Level → List Setting
  | .program => [.size, .engine, .delay, .theme, .verbose, .help, .version]
  | .play => [.help]
  | .solve => [.json, .help]
  | .trace => [.limit, .help]

def below : Level → List (String × Level)
  | .program => [("play", .play), ("solve", .solve), ("trace", .trace)]
  | _ => []

def below? (level : Level) (word : String) : Option Level := level.below.lookup word

def isCommand (level : Level) (word : String) : Bool :=
  (level.below? word).isSome || (level == .program && word == "help")

def about : Level → String
  | .program => "Place N queens on an NxN board so that none attack each other"
  | .play => "Interactive board (default)"
  | .solve => "Print one solution and exit"
  | .trace => "Print every step of the incremental search"

def long? (level : Level) (name : String) : Option Setting :=
  level.settings.find? (·.long == name)

def short? (level : Level) (letter : Char) : Option Setting :=
  level.settings.find? (·.short? == some letter)

def task? (level : Level) (draft : Draft) : Option Task :=
  match level with
  | .program => none
  | .play => some .play
  | .solve => some (.solve draft.json)
  | .trace => some (.trace draft.limit)

/-- What is wrong with a word that is neither an option nor its value. -/
def strayWord (level : Level) (word : String) : UsageError :=
  match level with
  | .program => .unknownCommand word
  | _ => .unknownArgument word

def helpOn (level : Level) : List String → UsageError
  | [] => .help level.about
  | word :: words =>
      match level.below? word with
      | some next => next.helpOn words
      | none =>
          if level == .program && word == "help" then
            match words with
            | [] => .help "Print this message or the help of the given subcommand(s)"
            | word :: _ => .unknownCommand word
          else .unknownCommand word

end Level

/-- A setting whose value is a word of its own. -/
inductive Pending where
  | nothing
  | awaiting (setting : Setting)
  /-- The value is there and was not looked at. -/
  | holding (setting : Setting) (value : String)
  deriving DecidableEq, Repr

structure Progress where
  draft : Draft := {}
  pending : Pending := .nothing
  deriving DecidableEq, Repr

namespace Progress

def settle (progress : Progress) : Except UsageError Draft :=
  match progress.pending with
  | .nothing => .ok progress.draft
  | .awaiting setting => .error (.missingValue setting)
  | .holding setting value => progress.draft.supply setting value

def attach (progress : Progress) (setting : Setting) (value : String) :
    Except UsageError Progress := do
  let draft ← progress.settle
  return { draft := ← draft.supply setting value }

/-- Makes a setting without a value, or waits for its value. -/
def meet (progress : Progress) (level : Level) (setting : Setting) :
    Except UsageError Progress := do
  let draft ← progress.settle
  if setting.takesValue then return { draft, pending := .awaiting setting }
  else return { draft := ← draft.switch level.about setting }

def readLong (progress : Progress) (level : Level) (body : List Char) :
    Except UsageError Progress :=
  let name := String.ofList (body.takeWhile (· != '='))
  let value? :=
    match body.dropWhile (· != '=') with
    | [] => none
    | _ :: value => some (String.ofList value)
  match level.long? name, value? with
  | none, _ => .error (.unknownArgument ("--" ++ name))
  | some setting, none => progress.meet level setting
  | some setting, some value =>
      if setting.takesValue then progress.attach setting value
      else .error (.surplusValue setting value)

def readShort (level : Level) : List Char → Progress → Except UsageError Progress
  | [], progress => .ok progress
  | letter :: rest, progress =>
      match level.short? letter with
      | none => .error (.unknownArgument (String.ofList ['-', letter]))
      | some setting =>
          if setting.takesValue then
            match rest with
            | [] => progress.meet level setting
            | '=' :: value => progress.attach setting (String.ofList value)
            | value => progress.attach setting (String.ofList value)
          else
            match progress.meet level setting with
            | .ok progress => readShort level rest progress
            | .error error => .error error

def readPlain (progress : Progress) (level : Level) (word : String) :
    Except UsageError Progress :=
  match progress.pending with
  | .awaiting setting => .ok { progress with pending := .holding setting word }
  | _ => .error (level.strayWord word)

/-- Reads a word that does not lead to another level and is not `--`. -/
def readWord (progress : Progress) (level : Level) (word : String) :
    Except UsageError Progress :=
  match word.toList with
  | '-' :: '-' :: body => progress.readLong level body
  | ['-'] => progress.readPlain level word
  | '-' :: letters => readShort level letters progress
  | _ => progress.readPlain level word

def isAwaiting (progress : Progress) : Bool :=
  match progress.pending with
  | .awaiting _ => true
  | _ => false

end Progress

/-- Reads the words of a level and of the levels below it. -/
def readWords (level : Level) (progress : Progress) :
    List String → Except UsageError (Draft × Option Task)
  | [] => do
      let draft ← progress.settle
      return (draft, level.task? draft)
  | word :: words =>
      if word = "--" then
        match words with
        | [] => do
            let draft ← progress.settle
            return (draft, level.task? draft)
        | next :: _ =>
            .error (if level.isCommand next then .unknownArgument next else level.strayWord next)
      else if !progress.isAwaiting && level.isCommand word then
        match level.below? word with
        | none => .error (level.helpOn words)
        | some below => do
            let (draft, task) ← readWords below { draft := progress.draft } words
            let draft ← { progress with draft }.settle
            return (draft, task)
      else
        match progress.readWord level word with
        | .ok progress => readWords level progress words
        | .error error => .error error

def readOptions (words : List String) : Except UsageError Options := do
  let (draft, task) ← readWords .program {} words
  return draft.options task

end QueensPuzzle.CommandLine
