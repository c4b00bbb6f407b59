import Accumulator.Instr.Basic

/-!
# Library routines

Shifts by a variable count and word subtraction are subroutines. A routine is a list of lines:
most are ordinary instructions, and a few are instructions that only routines use. The same lines
are printed into a program and run by the machine.
-/

namespace Accumulator.Routine

/-- One operation of a routine. -/
inductive Action where
  | instr (i : Instr)
  /-- Subtract a register and the carry from the accumulator. -/
  | subtractBorrow (src : Reg)
  /-- Return. -/
  | ret
  /-- Return if the zero flag is set. -/
  | retZero
  /-- Continue at the line with a label. -/
  | goto (label : String)
  deriving DecidableEq

/-- One line of a routine. -/
structure Line where
  label : Option String := none
  action : Action
  deriving DecidableEq

/-- The label a routine is called by. -/
def label : Routine → String
  | shiftLeft => "@SHL"
  | shiftRight => "@SHR"
  | shiftLeftWord => "@SHLW"
  | shiftRightWord => "@SHRW"
  | subtractWord => "@SUBW"

/-- The routine with a label. -/
def ofLabel? (text : String) : Option Routine :=
  all.find? (·.label = text)

/-- Registers the arguments are passed in. -/
def inputs : Routine → List Reg
  | shiftLeft | shiftRight => [.a, .c]
  | shiftLeftWord | shiftRightWord => [.h, .l, .c]
  | subtractWord => [.h, .l, .d, .e]

/-- Registers whose contents a call destroys. -/
def clobbers : Routine → List Reg
  | shiftLeft | shiftRight => [.a, .c]
  | shiftLeftWord => [.h, .l, .c]
  | shiftRightWord => [.a, .h, .l, .c]
  | subtractWord => [.a, .h, .l]

/-- The shift loops count `c` down to zero. -/
def zeroesCount : Routine → Bool
  | subtractWord => false
  | _ => true

/-- The lines of a routine. A shift loop decrements `c` once more than it shifts, so the loop is
entered through an increment. -/
def body : Routine → List Line
  | shiftLeft =>
    [ { label := some "@SHL", action := .instr (.inr .c) },
      { label := some "@SHL1", action := .instr (.dcr .c) },
      { action := .retZero },
      { action := .instr (.alu .add .a) },
      { action := .goto "@SHL1" } ]
  | shiftRight =>
    [ { label := some "@SHR", action := .instr (.inr .c) },
      { label := some "@SHR1", action := .instr (.dcr .c) },
      { action := .retZero },
      { action := .instr (.alu .or .a) },
      { action := .instr .rar },
      { action := .goto "@SHR1" } ]
  | shiftLeftWord =>
    [ { label := some "@SHLW", action := .instr (.inr .c) },
      { label := some "@SHLW1", action := .instr (.dcr .c) },
      { action := .retZero },
      { action := .instr (.dad .h) },
      { action := .goto "@SHLW1" } ]
  | shiftRightWord =>
    [ { label := some "@SHRW", action := .instr (.inr .c) },
      { label := some "@SHRW1", action := .instr (.dcr .c) },
      { action := .retZero },
      { action := .instr (.alu .or .a) },
      { action := .instr (.mov .a .h) },
      { action := .instr .rar },
      { action := .instr (.mov .h .a) },
      { action := .instr (.mov .a .l) },
      { action := .instr .rar },
      { action := .instr (.mov .l .a) },
      { action := .goto "@SHRW1" } ]
  | subtractWord =>
    [ { label := some "@SUBW", action := .instr (.mov .a .l) },
      { action := .instr (.alu .sub .e) },
      { action := .instr (.mov .l .a) },
      { action := .instr (.mov .a .h) },
      { action := .subtractBorrow .d },
      { action := .instr (.mov .h .a) },
      { action := .ret } ]

/-- The routines that a stream calls, each once, in the order of `Routine.all`. -/
def calledBy (code : List Instr) : List Routine :=
  all.filter fun r => code.contains (.call r)

end Accumulator.Routine
