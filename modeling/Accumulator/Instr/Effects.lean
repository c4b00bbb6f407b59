import Accumulator.Routine

/-!
# Effects of instructions

Which registers an instruction reads and writes, whether it touches memory, and whether control
may leave the straight line there. The peephole rules and the deadness test rest on this table.
`m` never occurs in it: an operand `m` counts as a memory access that reads `h` and `l`.
-/

namespace Accumulator

/-- Register and memory effects of one instruction. -/
structure Effects where
  reads : List Reg := []
  writes : List Reg := []
  memRead : Bool := false
  memWrite : Bool := false
  /-- Control may be transferred, so nothing is moved or removed across. -/
  barrier : Bool := false

/-- Registers read to obtain the value of an operand. -/
def Reg.sourceReads : Reg → List Reg
  | m => [h, l]
  | r => [r]

/-- Registers read to store into an operand. -/
def Reg.targetReads : Reg → List Reg
  | m => [h, l]
  | _ => []

/-- Registers changed by storing into an operand. -/
def Reg.targetWrites : Reg → List Reg
  | m => []
  | r => [r]

/-- Registers that make up a pair. -/
def Pair.registers : Pair → List Reg
  | b => [.b, .c]
  | d => [.d, .e]
  | h => [.h, .l]
  | sp => []
  | psw => [.a]

namespace Instr

/-- The effects of an instruction. -/
def effects : Instr → Effects
  | mov dst src =>
    { reads := src.sourceReads ++ dst.targetReads
      writes := dst.targetWrites
      memRead := src = .m
      memWrite := dst = .m }
  | mvi dst _ =>
    { reads := dst.targetReads, writes := dst.targetWrites, memWrite := dst = .m }
  | lda _ => { writes := [.a], memRead := true }
  | sta _ => { reads := [.a], memWrite := true }
  | ldax pair => { reads := pair.registers, writes := [.a], memRead := true }
  | stax pair => { reads := pair.registers ++ [.a], memWrite := true }
  | alu op src =>
    { reads := src.sourceReads ++ [.a]
      writes := if op = .cmp then [] else [.a]
      memRead := src = .m }
  | aluImm op _ => { reads := [.a], writes := if op = .cmp then [] else [.a] }
  | inr reg | dcr reg =>
    { reads := reg.sourceReads
      writes := reg.targetWrites
      memRead := reg = .m
      memWrite := reg = .m }
  | cma | ral | rar => { reads := [.a], writes := [.a] }
  | lxi pair _ => { writes := pair.registers }
  | lhld _ => { writes := [.h, .l], memRead := true }
  | shld _ => { reads := [.h, .l], memWrite := true }
  | inx pair | dcx pair => { reads := pair.registers, writes := pair.registers }
  | dad pair => { reads := pair.registers ++ [.h, .l], writes := [.h, .l] }
  | xchg => { reads := [.d, .e, .h, .l], writes := [.d, .e, .h, .l] }
  | xthl => { reads := [.h, .l], writes := [.h, .l], memRead := true, memWrite := true }
  | push pair => { reads := pair.registers, memWrite := true }
  | pop pair => { writes := pair.registers, memRead := true }
  | call routine =>
    { reads := routine.inputs, writes := routine.clobbers, barrier := true }
  | jump .. | hlt => { barrier := true }
  | comment _ => {}

/-- The instruction depends on a register. -/
def reads (i : Instr) (r : Reg) : Bool :=
  i.effects.reads.contains r

/-- The instruction changes a register. -/
def writes (i : Instr) (r : Reg) : Bool :=
  i.effects.writes.contains r

/-- The instruction changes a register without depending on it. -/
def overwrites (i : Instr) (r : Reg) : Bool :=
  i.writes r && !i.reads r

/-- The instruction loads from memory. -/
def readsMemory (i : Instr) : Bool :=
  i.effects.memRead

/-- The instruction stores to memory. -/
def writesMemory (i : Instr) : Bool :=
  i.effects.memWrite

/-- Jumps, calls and halts. -/
def isBarrier (i : Instr) : Bool :=
  i.effects.barrier

end Instr

end Accumulator
