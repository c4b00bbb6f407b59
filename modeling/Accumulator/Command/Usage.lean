import Accumulator.Command.Basic
import Accumulator.Command.Origin
import Accumulator.Command.Terminal

/-!
# Usage

The arguments that commands take, and what can be wrong with those that are given.
-/

namespace Accumulator.Command

/-- What an argument of a command gives. -/
inductive Argument where
  | input | output | printTriples | noPeephole | codeOrigin | dataOrigin | verbose | help | version
  deriving DecidableEq

namespace Argument

/-- The long name of an option. -/
def long? : Argument → Option String
  | input => none
  | output => some "output"
  | printTriples => some "print-ir"
  | noPeephole => some "no-peephole"
  | codeOrigin => some "code-org"
  | dataOrigin => some "data-org"
  | verbose => some "verbose"
  | help => some "help"
  | version => some "version"

/-- The letter of an option. -/
def short? : Argument → Option Char
  | output => some 'o'
  | verbose => some 'v'
  | help => some 'h'
  | version => some 'V'
  | _ => none

/-- The argument has a value. -/
def takesValue : Argument → Bool
  | input | output | codeOrigin | dataOrigin => true
  | _ => false

/-- How an argument is called in a message. -/
def text : Argument → String
  | input => "<INPUT>"
  | output => "--output <OUTPUT>"
  | printTriples => "--print-ir"
  | noPeephole => "--no-peephole"
  | codeOrigin => "--code-org <CODE_ORG>"
  | dataOrigin => "--data-org <DATA_ORG>"
  | verbose => "--verbose"
  | help => "--help"
  | version => "--version"

end Argument

/-- The arguments that a command takes. -/
def Topic.arguments : Topic → List Argument
  | .program => [.help, .version]
  | .compile =>
    [.input, .output, .printTriples, .noPeephole, .codeOrigin, .dataOrigin, .verbose, .help]
  | .triples => [.input, .help]
  | .help => []

/-- The option of a command with a long name. -/
def Topic.long? (topic : Topic) (name : String) : Option Argument :=
  topic.arguments.find? (·.long? = some name)

/-- The option of a command with a letter. -/
def Topic.short? (topic : Topic) (letter : Char) : Option Argument :=
  topic.arguments.find? (·.short? = some letter)

/-- Why the arguments are no command. -/
inductive UsageError where
  | noCommand
  | unknownCommand (text : String)
  | unexpectedArgument (text : String)
  | unexpectedValue (value : String) (argument : Argument)
  | missingValue (argument : Argument)
  | missingInput
  | repeated (argument : Argument)
  | invalidOrigin (value : String) (argument : Argument) (trimmed : String) (reason : OriginError)
  deriving DecidableEq

namespace UsageError

open Terminal (highlight)

/-- The message for a terminal, with what was given in another colour. Without a command there is
only help, which is no message. -/
def colored? : UsageError → Option String
  | noCommand => none
  | unknownCommand text => some s!"unrecognized subcommand '{highlight text}'"
  | unexpectedArgument text => some s!"unexpected argument '{highlight text}' found"
  | unexpectedValue value argument =>
    some (s!"unexpected value '{highlight value}' for '{argument.text}' found; " ++
      "no more were expected")
  | missingValue argument =>
    some s!"a value is required for '{argument.text}' but none was supplied"
  | missingInput => some "the following required arguments were not provided:"
  | repeated argument => some s!"the argument '{argument.text}' cannot be used multiple times"
  | invalidOrigin value argument trimmed reason =>
    some (s!"invalid value '{highlight value}' for '{argument.text}': " ++
      s!"invalid origin '{trimmed}': {reason.message}")

/-- The message where it is not shown on a terminal. -/
def message? (e : UsageError) : Option String :=
  e.colored?.map Terminal.plain

end UsageError

end Accumulator.Command
