import Accumulator.Instr.Effects

/-!
# Dead registers

A register is dead where its content cannot matter: it is overwritten, or the program ends,
before it is read. Where control may leave the straight line, every register counts as read.
-/

namespace Accumulator.Peephole

/-- The register is overwritten before it is read by the instructions, or not read at all. -/
def isDead (r : Reg) : List Instr → Bool
  | [] => true
  | i :: rest =>
    if i.isBarrier || i.reads r then false
    else if i.writes r then true
    else isDead r rest

/-- The register is dead after the instruction at a position. -/
def isDeadAfter (code : List Instr) (pos : Nat) (r : Reg) : Bool :=
  isDead r (code.drop (pos + 1))

end Accumulator.Peephole
