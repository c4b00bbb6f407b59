import Accumulator.Listing

/-!
# Commands

What the program can be asked to do.
-/

namespace Accumulator

/-- How an input is compiled. -/
structure CompileOptions where
  input : String
  output : Option String := none
  printTriples : Bool := false
  peephole : Bool := true
  origins : Origins := {}
  deriving DecidableEq

namespace Command

/-- What help is about: the program or one of its commands. -/
inductive Topic where
  | program | compile | triples | help
  deriving DecidableEq

/-- The name of a command on the command line. -/
def Topic.name : Topic → String
  | program => "acc"
  | compile => "compile"
  | triples => "ir"
  | help => "help"

/-- The command with a name. -/
def Topic.ofName? (name : String) : Option Topic :=
  [compile, triples, help].find? (·.name = name)

end Command

/-- What the program is asked to do. -/
inductive Command where
  /-- Compile a file of events to assembler text. -/
  | compile (options : CompileOptions)
  /-- Print the optimized triples of a file of events. -/
  | triples (input : String)
  | help (topic : Command.Topic)
  | version
  deriving DecidableEq

end Accumulator
