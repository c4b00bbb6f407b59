import Accumulator.Draft
import Accumulator.Listing
import Accumulator.Peephole.Table
import Accumulator.Select.Program

/-!
# Compilation

From events to code: the events are drafted into an optimized program, instructions are selected
for it, and the peephole optimizer cleans them.
-/

namespace Accumulator

/-- Clean finished code, and collect the library routines that it still calls. -/
def Peephole.finish (code : List Instr) : List Instr × List Routine :=
  let cleaned := (optimize code).2
  (cleaned, Routine.calledBy cleaned)

/-- What a compilation produces. -/
structure Compilation where
  program : Program
  code : List Instr
  /-- The library routines that come with the code. -/
  routines : List Routine

namespace Compilation

/-- The assembler text. -/
def assembly (c : Compilation) (origins : Origins) : Except Overflow String :=
  Listing.program c.code c.routines c.program.symbols origins

/-- Selected code and its library routines, with or without the peephole optimizer. -/
def finished (code : List Instr) (peephole : Bool) : List Instr × List Routine :=
  if peephole then Peephole.finish code else (code, Routine.calledBy code)

/-- Compile events, with or without the peephole optimizer. -/
def ofEvents (events : List Event) (peephole : Bool := true) : Except Failure Compilation := do
  let program ← (Program.ofEvents events).mapError .rejected
  let code ← program.instructions
  let last := finished code peephole
  return { program, code := last.1, routines := last.2 }

end Compilation

end Accumulator
