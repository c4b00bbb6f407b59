import Accumulator.Command.Usage

/-!
# Arguments

The command line as a command. An option takes its value from the same argument, after an equals
sign, or from the next one. A value that came in an argument of its own is checked when the next
argument is understood, or at the end; so of two faults the later may be the one that is reported.
-/

namespace Accumulator.Command

/-! ## Tokens -/

/-- One argument, taken apart. -/
inductive Token where
  /-- `--name` or `--name=value`. -/
  | long (name : String) (value : Option String)
  /-- `-` and letters. -/
  | short (letters : List Char)
  /-- `--`: all that follows is plain. -/
  | escape
  | plain (text : String)
  deriving DecidableEq

/-- The token of an argument. -/
def Token.ofArgument (argument : String) : Token :=
  match argument.toList with
  | ['-', '-'] => .escape
  | '-' :: '-' :: cs =>
    let name := String.ofList (cs.takeWhile (· ≠ '='))
    match cs.dropWhile (· ≠ '=') with
    | [] => .long name none
    | _ :: value => .long name (some (String.ofList value))
  | '-' :: c :: cs => .short (c :: cs)
  | _ => .plain argument

/-! ## Values -/

/-- Why reading arguments ends before the last: they are refused, or they already say what is to
be done. -/
inductive Verdict where
  | refused (reason : UsageError)
  | decided (command : Command)
  deriving DecidableEq

/-- What has been given and checked. -/
structure Given where
  input : Option String := none
  output : Option String := none
  codeOrigin : Option Word := none
  dataOrigin : Option Word := none
  switches : List Argument := []

namespace Given

/-- The argument has been given. -/
def has (g : Given) : Argument → Bool
  | .input => g.input.isSome
  | .output => g.output.isSome
  | .codeOrigin => g.codeOrigin.isSome
  | .dataOrigin => g.dataOrigin.isSome
  | argument => g.switches.contains argument

/-- The name of a file, which is not empty. -/
def fileName (argument : Argument) (value : String) : Except Verdict String :=
  if value.isEmpty then .error (.refused (.missingValue argument)) else .ok value

/-- The origin that a value gives. -/
def origin (argument : Argument) (value : String) : Except Verdict Word :=
  let trimmed := Origin.trim value.toList
  (Origin.read trimmed).mapError fun reason =>
    .refused (.invalidOrigin value argument (String.ofList trimmed) reason)

/-- Set an argument to a value. -/
def set (g : Given) (argument : Argument) (value : String) : Except Verdict Given :=
  match argument with
  | .input => do return { g with input := some (← fileName argument value) }
  | .output => do return { g with output := some (← fileName argument value) }
  | .codeOrigin => do return { g with codeOrigin := some (← origin argument value) }
  | .dataOrigin => do return { g with dataOrigin := some (← origin argument value) }
  | _ => .ok g

/-- Take an argument with its value, if it has one. Each is given once; help and the version need
no more arguments. -/
def take (g : Given) (topic : Topic) (argument : Argument) (value : Option String) :
    Except Verdict Given :=
  match argument, value with
  | .help, _ => .error (.decided (.help topic))
  | .version, _ => .error (.decided .version)
  | _, none =>
    if argument.takesValue then .error (.refused (.missingValue argument))
    else if g.has argument then .error (.refused (.repeated argument))
    else .ok { g with switches := argument :: g.switches }
  | _, some value =>
    if g.has argument then .error (.refused (.repeated argument))
    else g.set argument value

end Given

/-! ## Reading arguments -/

/-- The state between two arguments. -/
structure Scan where
  given : Given := {}
  /-- An argument that is not checked yet. An option without a value takes the next argument. -/
  pending : Option (Argument × Option String) := none
  /-- The input has been seen, checked or not. -/
  hasInput : Bool := false
  /-- Options are over. -/
  isPlainOnly : Bool := false

namespace Scan

/-- Check what is pending. -/
def settle (s : Scan) (topic : Topic) : Except Verdict Scan :=
  match s.pending with
  | none => .ok s
  | some (argument, value) => do
    return { s with given := ← s.given.take topic argument value, pending := none }

/-- Check what is pending, then take an argument. -/
def take (s : Scan) (topic : Topic) (argument : Argument) (value : Option String) :
    Except Verdict Scan := do
  let s ← s.settle topic
  return { s with given := ← s.given.take topic argument value }

/-- Check what is pending, then leave an argument pending. -/
def defer (s : Scan) (topic : Topic) (argument : Argument) (value : Option String) :
    Except Verdict Scan := do
  let s ← s.settle topic
  return { s with pending := some (argument, value) }

/-- A plain argument is the input. There is only one, and commands without an input take none. -/
def plain (s : Scan) (topic : Topic) (text : String) : Except Verdict Scan := do
  if s.hasInput || !topic.arguments.contains .input then
    .error (.refused (.unexpectedArgument text))
  else
    return { ← s.defer topic .input (some text) with hasInput := true }

/-- Options by their letters. What follows the letter of an option with a value is the value. -/
def letters (s : Scan) (topic : Topic) : List Char → Except Verdict Scan
  | [] => .ok s
  | c :: cs =>
    match topic.short? c with
    | none => .error (.refused (.unexpectedArgument (String.ofList ['-', c])))
    | some argument =>
      if argument.takesValue then
        match cs with
        | [] => s.defer topic argument none
        | '=' :: value => s.take topic argument (some (String.ofList value))
        | value => s.take topic argument (some (String.ofList value))
      else do
        (← s.take topic argument none).letters topic cs

/-- An option by its long name. -/
def long (s : Scan) (topic : Topic) (name : String) (value : Option String) :
    Except Verdict Scan :=
  match topic.long? name, value with
  | none, _ => .error (.refused (.unexpectedArgument ("--" ++ name)))
  | some argument, none =>
    if argument.takesValue then s.defer topic argument none else s.take topic argument none
  | some argument, some value =>
    if argument.takesValue then s.take topic argument (some value)
    else .error (.refused (.unexpectedValue value argument))

/-- Read one argument. -/
def next (s : Scan) (topic : Topic) (argument : String) : Except Verdict Scan :=
  if s.isPlainOnly then
    s.plain topic argument
  else
    match Token.ofArgument argument with
    | .escape => .ok { s with isPlainOnly := true }
    | .long name value => s.long topic name value
    | .short letters => s.letters topic letters
    | .plain text =>
      match s.pending with
      | some (option, none) => .ok { s with pending := some (option, some text) }
      | _ => s.plain topic text

/-- Read the arguments of a command. -/
def all (topic : Topic) (arguments : List String) : Except Verdict Given := do
  let s ← arguments.foldlM (fun s argument => s.next topic argument) ({} : Scan)
  return (← s.settle topic).given

end Scan

/-! ## Commands -/

/-- The command that was asked for. Both kinds need an input. -/
def Given.command (g : Given) (topic : Topic) : Except Verdict Command :=
  match g.input with
  | none => .error (.refused .missingInput)
  | some input =>
    if topic = .triples then
      .ok (.triples input)
    else
      let defaults : Origins := {}
      .ok (.compile
        { input
          output := g.output
          printTriples := g.has .printTriples
          peephole := !g.has .noPeephole
          origins :=
            { code := g.codeOrigin.getD defaults.code
              data := g.dataOrigin.getD defaults.data } })

/-- The command of arguments that ask for help. Commands have no commands of their own. -/
def helpOn : List String → Except Verdict Command
  | [] => .ok (.help .program)
  | name :: rest =>
    match Topic.ofName? name, rest with
    | none, _ => .error (.refused (.unknownCommand name))
    | some topic, [] => .ok (.help topic)
    | some _, name :: _ => .error (.refused (.unknownCommand name))

/-- Read the arguments of the program. The first that is no option names the command; a command
does not follow `--`. -/
def read (isPlainOnly : Bool) : List String → Except Verdict Command
  | [] => .error (.refused .noCommand)
  | argument :: rest =>
    match Topic.ofName? argument, isPlainOnly with
    | some _, true => .error (.refused (.unexpectedArgument argument))
    | none, true => .error (.refused (.unknownCommand argument))
    | some .help, false => helpOn rest
    | some topic, false => do (← Scan.all topic rest).command topic
    | none, false =>
      match Token.ofArgument argument with
      | .escape => read true rest
      | .plain text => .error (.refused (.unknownCommand text))
      | .long .. | .short _ => do
        let _ ← ({} : Scan).next .program argument
        read false rest

/-- The command that arguments give. -/
def ofArguments (arguments : List String) : Except UsageError Command :=
  match read false arguments with
  | .ok command | .error (.decided command) => .ok command
  | .error (.refused reason) => .error reason

end Accumulator.Command
