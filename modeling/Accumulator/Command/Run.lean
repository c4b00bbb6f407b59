import Accumulator.Command.Arguments
import Accumulator.Command.Files
import Accumulator.Command.Help
import Accumulator.Compilation
import Accumulator.Event.Decode

/-!
# Running commands

A command reads its input, compiles it, prints triples if it was asked to, and writes assembler
text. Nothing is printed or written unless the compilation succeeds.
-/

namespace Accumulator

namespace Command

/-- Why a command fails. -/
inductive Error where
  | usage (reason : UsageError)
  | file (reason : FileError)
  /-- The input is not a list of events. -/
  | malformed
  | rejected (reason : Rejection)
  | overflow (kind : Overflow)
  deriving DecidableEq

/-- What the program exits with. -/
def Error.exitCode : Error → Nat
  | usage _ => 2
  | overflow _ => 101
  | file _ | malformed | rejected _ => 1

/-- The text that reports an error. -/
def Error.text? : Error → Option String
  | usage reason => reason.message?.map ("error: " ++ ·)
  | file reason => some s!"Error: {reason.message}"
  | malformed => some "Error: malformed events"
  | rejected reason => some s!"Error: {reason.message}"
  | overflow _ => none

/-- The first line of a text. A carriage return before the end of the line belongs to the end. -/
def firstLine (text : String) : String :=
  let line := text.toList.takeWhile (· ≠ '\n')
  String.ofList (if line.getLast? = some '\r' then line.dropLast else line)

/-- The line that reports an error. -/
def Error.line? (e : Error) : Option String :=
  e.text?.map firstLine

/-- Where the text of an input goes by default: its last extension is replaced. A point at the
start of a name begins no extension. -/
def defaultOutput (input : String) : String :=
  let cs := input.toList
  let name := (cs.reverse.takeWhile (· ≠ '/')).reverse
  let folder := cs.take (cs.length - name.length)
  let stem := (name.reverse.dropWhile (· ≠ '.')).drop 1 |>.reverse
  let stem := if stem.isEmpty then name else stem
  String.ofList (folder ++ stem) ++ ".asm"

/-- The compilation of an input. -/
def compileText (peephole : Bool) (text : String) : Except Error Compilation :=
  match Event.parseAll? text with
  | none => .error .malformed
  | some events =>
    (Compilation.ofEvents events peephole).mapError fun
      | .rejected reason => .rejected reason
      | .overflow kind => .overflow kind

/-- What a command does after it has read its input: what it prints, and the file it writes or why
it fails. -/
structure Effect where
  stdout : String := ""
  result : Except Error (Option (String × String)) := .ok none

/-- The effect of a command, given how to read a file. -/
def effect (read : String → Except FileError String) : Command → Effect
  | version => { stdout := versionText }
  | help topic => { stdout := topic.helpText }
  | triples input =>
    match (read input).mapError Error.file >>= compileText true with
    | .error reason => { result := .error reason }
    | .ok c => { stdout := Triple.listing c.program.triples }
  | compile options =>
    match (read options.input).mapError Error.file >>= compileText options.peephole with
    | .error reason => { result := .error reason }
    | .ok c =>
      { stdout := if options.printTriples then Triple.listing c.program.triples else ""
        result :=
          match c.assembly options.origins with
          | .error kind => .error (.overflow kind)
          | .ok text => .ok (some (options.output.getD (defaultOutput options.input), text)) }

/-- How the program ends. -/
structure Outcome where
  stdout : String := ""
  error : Option Error := none
  files : Files

/-- The exit code of the program. -/
def Outcome.exitCode (o : Outcome) : Nat :=
  match o.error with
  | none => 0
  | some e => e.exitCode

/-- Run the program with arguments and files around it. -/
def runIn (files : Files) (arguments : List String) : Outcome :=
  match ofArguments arguments with
  | .error reason => { error := some (.usage reason), files }
  | .ok command =>
    let done := command.effect files.read
    match done.result with
    | .error reason => { stdout := done.stdout, error := some reason, files }
    | .ok none => { stdout := done.stdout, files }
    | .ok (some (path, text)) =>
      match files.write path text with
      | .error reason => { stdout := done.stdout, error := some (.file reason), files }
      | .ok after => { stdout := done.stdout ++ after.printed, files := after }

end Command

end Accumulator
