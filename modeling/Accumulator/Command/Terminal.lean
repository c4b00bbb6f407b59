/-!
# Text for terminals

A message may hold control sequences, its own or those of an argument that it quotes. Where it is
not shown on a terminal they are left out, and so are control characters other than white space.
A sequence starts with an escape and ends as its kind says; if it is not ended it takes what
follows with it, up to the next escape.
-/

namespace Accumulator.Terminal

/-- Where a text stands in a control sequence. -/
inductive Place where
  /-- In no sequence. -/
  | ground
  /-- After an escape. -/
  | escape
  /-- In a sequence of an escape and intermediate characters. -/
  | intermediate
  /-- In a control sequence with parameters. -/
  | parameters
  /-- At the start of a device control string. -/
  | deviceStart
  /-- In the parameters of a device control string. -/
  | deviceParameters
  /-- In the intermediate characters of a device control string. -/
  | deviceIntermediate
  /-- In a string that a string terminator ends. -/
  | string
  /-- In an operating system command, which a bell ends. -/
  | systemCommand
  deriving DecidableEq

/-- White space among the control characters. -/
def isSpace (c : Char) : Bool :=
  c = '\t' || c = '\n' || c = '\x0c' || c = '\r'

/-- The character is shown outside of sequences. -/
def isShown (c : Char) : Bool :=
  (' ' ≤ c && c ≠ '\x7f') || isSpace c

/-- One of the bytes after the first that encode a character is 9C, the string terminator. -/
def holdsTerminator (c : Char) : Bool :=
  let n := c.toNat
  (0x80 ≤ n && n % 64 = 28) || (0x800 ≤ n && n / 64 % 64 = 28) ||
    (0x10000 ≤ n && n / 4096 % 64 = 28)

/-- The place after an escape and a character. -/
def afterEscape (c : Char) : Place :=
  if c < ' ' || '\x7f' ≤ c then .escape
  else if c ≤ '/' then .intermediate
  else if c = '[' then .parameters
  else if c = ']' then .systemCommand
  else if c = 'P' then .deviceStart
  else if c = 'X' || c = '^' || c = '_' then .string
  else .ground

/-- The place inside a device control string after a character that leaves its start; a character
that says nothing there leaves the place as it is. -/
def insideDevice (place : Place) (c : Char) : Place :=
  if c < ' ' || '\x7f' ≤ c then place
  else if c ≤ '/' then .deviceIntermediate
  else if '@' ≤ c then .string
  else
    match place with
    | .deviceStart => .deviceParameters
    | .deviceParameters => if '<' ≤ c then .string else .deviceParameters
    | _ => .string

/-- The place after a character, and whether the character is shown. -/
def step (place : Place) (c : Char) : Place × Bool :=
  if c = '\x18' || c = '\x1a' then (.ground, false)
  else if c = '\x1b' then (.escape, false)
  else
    match place with
    | .ground => (.ground, isShown c)
    | .escape => (afterEscape c, isSpace c)
    | .intermediate =>
      (if '0' ≤ c && c < '\x7f' then .ground else .intermediate, isSpace c)
    | .parameters =>
      (if '@' ≤ c && c < '\x7f' then .ground else .parameters, isSpace c)
    | .deviceStart | .deviceParameters | .deviceIntermediate => (insideDevice place c, false)
    | .string => (if holdsTerminator c then .ground else .string, false)
    | .systemCommand => (if c = '\x07' then .ground else .systemCommand, false)

/-- The place after a shown character. White space inside a sequence is shown and does not end the
sequence, which goes on at the next character that is not shown. -/
def afterShown (place : Place) (c : Char) : Place :=
  if c < '\x80' then place else .ground

/-- The characters that are shown. `isShowing` says that the last one was. -/
def shown (place : Place) (isShowing : Bool) : List Char → List Char
  | [] => []
  | c :: cs =>
    if isShowing && isShown c then
      c :: shown (afterShown place c) true cs
    else
      let (next, isVisible) := step place c
      if isVisible then c :: shown (afterShown next c) true cs else shown next false cs

/-- The text without control sequences. -/
def plain (text : String) : String :=
  String.ofList (shown .ground false text.toList)

/-- A text in another colour. -/
def highlight (text : String) : String :=
  "\x1b[33m" ++ text ++ "\x1b[0m"

end Accumulator.Terminal
