import Accumulator.Command.Run

/-!
# The program

Reads the input file, runs the command and writes what it asks for.
-/

namespace Accumulator

/-- A failure of the system as a file error. -/
def fileError : IO.Error → FileError
  | .noFileOrDirectory .. => .missing
  | .inappropriateType .. => .isDirectory
  | e => .other (toString e)

/-- The file that a command reads. -/
def inputOf? : Command → Option String
  | .compile options => some options.input
  | .triples input => some input
  | .help _ | .version => none

/-- Read a file, or say why it cannot be read. -/
def readInput (path : String) : IO (Except FileError String) := do
  match ← (IO.FS.readFile path).toBaseIO with
  | .ok text => return .ok text
  | .error e => return .error (fileError e)

/-- Report an error and give the exit code. -/
def report (e : Command.Error) : IO UInt32 := do
  if let some text := e.text? then
    IO.eprintln text
  return e.exitCode.toUInt32

end Accumulator

open Accumulator in
/-- Run the program with the arguments of the command line. -/
def main (arguments : List String) : IO UInt32 := do
  match Command.ofArguments arguments with
  | .error .noCommand => do
    IO.eprint Command.Topic.program.helpText
    report (.usage .noCommand)
  | .error reason => report (.usage reason)
  | .ok command =>
    let content ←
      match inputOf? command with
      | some path => readInput path
      | none => pure (.ok "")
    let done := command.effect fun _ => content
    IO.print done.stdout
    match done.result with
    | .error e => report e
    | .ok none => return 0
    | .ok (some (path, text)) =>
      match ← (IO.FS.writeFile path text).toBaseIO with
      | .ok _ => return 0
      | .error e => report (.file (fileError e))
