import Accumulator.Machine.Step

/-!
# Runs

A program runs from its first instruction until it falls off the end or halts. Jumps are relative
to the first byte of the jump, in bytes. After a fault the machine is as the last complete
instruction left it.
-/

namespace Accumulator.Machine

/-- The condition of a jump holds. -/
def holds (m : Machine) : Cond → Bool
  | .z => m.zero
  | .nz => !m.zero
  | .c => m.carry
  | .nc => !m.carry

/-- Number of bytes of code. -/
def byteSize : List Instr → Nat
  | [] => 0
  | i :: rest => i.size + byteSize rest

/-- Position of the first instruction that starts a number of bytes after the start of the code. -/
def positionAt? : (offset : Nat) → List Instr → Option Nat
  | _, [] => none
  | 0, _ :: _ => some 0
  | offset + 1, i :: rest =>
    if offset + 1 < i.size then none
    else (positionAt? (offset + 1 - i.size) rest).map (· + 1)

/-- Position that the jump at a position goes to. It may go right behind the last instruction. -/
def jumpTarget (code : List Instr) (pos : Nat) (offset : Int) : Except Fault Nat :=
  let target := byteSize (code.take pos) + offset
  if target < 0 then
    .error (.jumpBeforeStart pos)
  else if target = byteSize code then
    .ok code.length
  else
    match positionAt? target.toNat code with
    | some next => .ok next
    | none => .error (.jumpIntoInstr pos)

/-- How a run ended: the machine, and what stopped it if anything did. -/
structure Outcome where
  machine : Machine
  fault : Option Fault := none

/-- The end of a run. The stack has to be as it was. -/
def finish (m : Machine) : Outcome :=
  { machine := m
    fault := if m.sp = stackTop then none else some (.unbalancedStack m.sp) }

/-- Run code from a position, for a number of steps. -/
def runFrom (code : List Instr) : (steps : Nat) → (pos : Nat) → Machine → Outcome
  | steps, pos, m =>
    match code[pos]?, steps with
    | none, _ => m.finish
    | some _, 0 => { machine := m, fault := some .doesNotTerminate }
    | some .hlt, _ + 1 => m.finish
    | some (.jump cond offset), steps + 1 =>
      if m.holds cond then
        match jumpTarget code pos offset with
        | .ok next => runFrom code steps next m
        | .error fault => { machine := m, fault := some fault }
      else
        runFrom code steps (pos + 1) m
    | some i, steps + 1 =>
      match m.step i with
      | .ok m => runFrom code steps (pos + 1) m
      | .error fault => { machine := m, fault := some fault }

/-- Run code from its start. -/
def run (m : Machine) (code : List Instr) : Outcome :=
  runFrom code maxSteps 0 m

/-! ## Variables by name -/

/-- Why a variable cannot be read or set. -/
inductive AccessError where
  | unknownVariable (name : String)
  | overflow (kind : Overflow)
  deriving DecidableEq

/-- The reason in words. -/
def AccessError.message : AccessError → String
  | unknownVariable name => (Fault.unknownVariable name).message
  | overflow kind => kind.message

/-- Address of a number of bytes into a variable. -/
def byteAddress (m : Machine) (name : String) (offset : Word) : Except AccessError Word :=
  match m.addressOf? name with
  | some base => .ok (base + offset)
  | none => .error (.unknownVariable name)

/-- Address of a word element of a variable. Its distance from the first is an unsigned word. -/
def wordAddress (m : Machine) (name : String) (index : Word) : Except AccessError Word := do
  let base ← m.byteAddress name 0
  if 0x8000 ≤ index.toNat then .error (.overflow .multiply) else .ok (base + 2 * index)

/-- Set a byte of a variable. -/
def setByte (m : Machine) (name : String) (offset : Word) (value : Byte) :
    Except AccessError Machine := do
  return m.store (← m.byteAddress name offset) value

/-- Set a word element of a variable. -/
def setWord (m : Machine) (name : String) (index : Word) (value : Word) :
    Except AccessError Machine := do
  return m.storeWord (← m.wordAddress name index) value

/-- A byte of a variable. -/
def byte (m : Machine) (name : String) (offset : Word) : Except AccessError Byte := do
  return m.memory.read (← m.byteAddress name offset)

/-- A word element of a variable. -/
def word (m : Machine) (name : String) (index : Word) : Except AccessError Word := do
  return m.memory.readWord (← m.wordAddress name index)

end Accumulator.Machine
