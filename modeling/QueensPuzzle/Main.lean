import QueensPuzzle.CommandLine.Report
import QueensPuzzle.Console.Play

/-! # The program

Reads the words behind the program's name, does what they say, and prints it. The
game is played on standard input, a line of keys at a time; an empty line is the
enter key.
-/

namespace QueensPuzzle.CommandLine

open Console

/-- Size of the screen on which the game is drawn. -/
def screen : ScreenSize := .ok (80, 24)

/-- The keys of a line that was typed. -/
def typedKeys (line : String) : List Key :=
  match line.toList.filter fun c => c != '\n' && c != '\r' with
  | [] => [{ code := .enter }]
  | chars => chars.map fun c => { code := .character c }

def logEvents (options : Options) (events : List Event) : IO Unit := do
  for line in Event.lines (logLevel options.verbose) events do
    IO.eprintln line

/-- Plays turn after turn. `keys` were typed and not looked at, and `ticked` is the time
of the last tick. -/
partial def playFrom (options : Options) (input output : IO.FS.Stream) (keys : List Key)
    (ticked : Nat) (game : Game) : IO Unit := do
  let (happening, keys) ←
    match keys with
    | key :: keys => pure (Happening.key key, keys)
    | [] => do
        let line ← input.getLine
        if line.isEmpty then pure (.key { code := .escape }, [])
        else pure (.quiet, typedKeys line)
  let now ← IO.monoMsNow
  let due := game.delay ≤ now - ticked
  let (outputs, events, ending) := turn screen ⟨happening, due⟩ game
  output.putStr (Output.codes outputs)
  output.flush
  logEvents options events
  match ending with
  | .goesOn next => playFrom options input output keys (if due then now else ticked) next
  | .quits => pure ()
  | .fails trouble => IO.eprintln (troubleLine trouble)

def printEnding (ending : Ending) : IO UInt32 := do
  let output ← IO.getStdout
  output.putStr ending.stdout
  output.flush
  for line in ending.stderr do
    IO.eprintln line
  return ending.exitCode.toUInt32

end QueensPuzzle.CommandLine

open QueensPuzzle QueensPuzzle.Console QueensPuzzle.CommandLine in
def main (words : List String) : IO UInt32 := do
  match readOptions words with
  | .error error => printEnding (Ending.ofUsage error)
  | .ok options =>
      match options.report? with
      | some report => printEnding (Ending.ofReport options.verbose report)
      | none =>
          let output ← IO.getStdout
          output.putStr (Output.codes [.enterAlternateScreen])
          playFrom options (← IO.getStdin) output [] (← IO.monoMsNow) options.game
          output.putStr (Output.codes [.leaveAlternateScreen])
          output.flush
          return 0
