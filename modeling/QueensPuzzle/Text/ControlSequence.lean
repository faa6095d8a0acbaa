/-! # Control sequences in texts

Some characters in a text are commands to a terminal: a control character, or an
escape character with what belongs to it. `withoutControls` gives the text that is
left without them. Tabs, line ends and form feeds stay, and one of them interrupts
a sequence that is not finished, unless the sequence is a string. What becomes of
the sequence is up to an `Interruption`.
-/

namespace QueensPuzzle.Text

/-- A control sequence by what was read of it. -/
inductive ControlSequence where
  | escape
  /-- An escape character and a sign that wants another one. -/
  | escapeSign
  /-- The parameters, up to a letter. -/
  | parameters
  /-- The head of a device string. -/
  | deviceStart
  | deviceParameters
  | deviceSign
  /-- A string for a device or an application. -/
  | string
  /-- A command to the operating system, up to a bell. -/
  | command
  deriving DecidableEq, Repr

/-- What becomes of a sequence that a tab, a line end or a form feed interrupts. -/
inductive Interruption where
  | ends
  /-- The sequence goes on behind the text in between, unless a character outside ASCII
  stands there. -/
  | suspends
  deriving DecidableEq, Repr

/-- Where the next character of a text stands. -/
inductive Scan where
  /-- In text, with the sequence that goes on behind it. -/
  | text (suspended : Option ControlSequence)
  | within (sequence : ControlSequence)
  deriving DecidableEq, Repr

/-- Tabs, line ends and form feeds, which shape a text. -/
def isLayout (c : Char) : Bool := c == '\t' || c == '\n' || c == '\x0c' || c == '\r'

def isControl (c : Char) : Bool := c.toNat < 32 || c == '\x7f'

/-- The characters that text shows. -/
def isShown (c : Char) : Bool := isLayout c || !isControl c

/-- Whether a byte of the character is the string terminator. -/
def holdsTerminator (c : Char) : Bool := (String.utf8EncodeChar c).contains 0x9C

def Scan.plain : Scan := .text none

namespace ControlSequence

/-- What comes behind an escape character and `c`. -/
def afterEscape (c : Char) : Scan :=
  if c == '[' then .within .parameters
  else if c == ']' then .within .command
  else if c == 'P' then .within .deviceStart
  else if c == 'X' || c == '^' || c == '_' then .within .string
  else if ' ' ≤ c && c ≤ '/' then .within .escapeSign
  else .plain

/-- What comes behind `c` in the head of a device string. The string starts behind a
letter, or where the head is not well formed. -/
def afterDevice (head : ControlSequence) (c : Char) : ControlSequence :=
  if ' ' ≤ c && c ≤ '/' then .deviceSign
  else if '0' ≤ c && c ≤ ';' then
    if head == .deviceSign then .string else .deviceParameters
  else if '<' ≤ c && c ≤ '?' then
    if head == .deviceStart then .deviceParameters else .string
  else .string

/-- What a sequence that is interrupted leaves to be taken up. -/
def interrupted (sequence : ControlSequence) : Interruption → Scan
  | .ends => .plain
  | .suspends => .text (some sequence)

/-- The scan behind a character in a sequence, and whether the character is part of the
text that is left. Characters outside ASCII do not end a sequence other than a string. -/
def step (interruption : Interruption) (sequence : ControlSequence) (c : Char) : Scan × Bool :=
  match sequence with
  | .command => (if c == '\x07' then .plain else .within .command, false)
  | .string => (if holdsTerminator c then .plain else .within .string, false)
  | .deviceStart | .deviceParameters | .deviceSign =>
      (.within (if isControl c || '\x7f' < c then sequence else sequence.afterDevice c), false)
  | .escape | .escapeSign | .parameters =>
      if isLayout c then (sequence.interrupted interruption, true)
      else if isControl c || '\x7f' < c then (.within sequence, false)
      else
        match sequence with
        | .escape => (afterEscape c, false)
        | .escapeSign => (if c ≤ '/' then .within .escapeSign else .plain, false)
        | _ => (if c ≤ '?' then .within .parameters else .plain, false)

end ControlSequence

namespace Scan

/-- The scan behind a character, and whether the character is part of the text that is
left. An escape character starts a sequence everywhere, and two others cancel one. -/
def step (interruption : Interruption) (scan : Scan) (c : Char) : Scan × Bool :=
  if c == '\x1b' then (.within .escape, false)
  else if c == '\x18' || c == '\x1a' then (.plain, false)
  else
    match scan with
    | .within sequence => sequence.step interruption c
    | .text none => (.plain, isShown c)
    | .text (some sequence) =>
        if isShown c then (if '\x7f' < c then .plain else .text (some sequence), true)
        else sequence.step interruption c

def remaining (interruption : Interruption) : Scan → List Char → List Char
  | _, [] => []
  | scan, c :: rest =>
      let (next, stays) := scan.step interruption c
      if stays then c :: next.remaining interruption rest else next.remaining interruption rest

end Scan

/-- The text that is left without control characters and control sequences. -/
def withoutControls (interruption : Interruption) (text : String) : String :=
  String.ofList (Scan.plain.remaining interruption text.toList)

/-- A text without controls is left as it is. -/
theorem remaining_of_forall_not_isControl (interruption : Interruption) {text : List Char}
    (h : ∀ c ∈ text, isControl c = false) :
    Scan.plain.remaining interruption text = text := by
  induction text with
  | nil => rfl
  | cons c rest ih =>
      have hc : isControl c = false := h c List.mem_cons_self
      have step : Scan.plain.step interruption c = (.plain, true) := by
        have escape : c ≠ '\x1b' := by rintro rfl; simp [isControl] at hc
        have cancel : c ≠ '\x18' := by rintro rfl; simp [isControl] at hc
        have substitute : c ≠ '\x1a' := by rintro rfl; simp [isControl] at hc
        simp [Scan.step, Scan.plain, isShown, escape, cancel, substitute, hc]
      simp only [Scan.remaining, step, if_true]
      rw [ih fun d hd => h d (List.mem_cons_of_mem c hd)]

/-- The text in front of the first line end, which is a line feed with or without a
carriage return in front of it. -/
def firstLine (text : String) : String :=
  let chars := text.toList
  let line := chars.takeWhile (· != '\n')
  let ended := line.length < chars.length
  String.ofList (if ended && line.getLast? == some '\r' then line.dropLast else line)

end QueensPuzzle.Text
