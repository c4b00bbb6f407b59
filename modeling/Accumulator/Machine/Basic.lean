import Accumulator.Hex
import Accumulator.Instr.Text
import Accumulator.Machine.Memory
import Accumulator.Registers
import Accumulator.Symbol

/-!
# The machine

Registers, flags and 64K of memory. Variables lie one after the other in declaration order. The
registers start with a value that a correct program never shows, so that a read of an unset
register is noticed.
-/

namespace Accumulator

/-- Why a run stops before its end. -/
inductive Fault where
  | doesNotTerminate
  | jumpBeforeStart (pos : Nat)
  | jumpIntoInstr (pos : Nat)
  | unbalancedStack (sp : Word)
  | unknownVariable (name : String)
  | routineEnds (routine : Routine)
  | routineLabel (routine : Routine) (label : String)
  | routineReturn (routine : Routine) (address : Word)
  | routineLoops (routine : Routine)
  deriving DecidableEq

namespace Machine

/-- Address of the first variable. -/
def dataBase : Word := 0x1000

/-- The stack pointer before and after a program. -/
def stackTop : Word := 0xF000

/-- The return address of a call, checked on return. -/
def returnMark : Word := 0xBEEF

/-- Contents of the registers before a program runs. -/
def unset : Byte := 0xA5

/-- The largest number of steps of a program, and of one call of a routine. -/
def maxSteps : Nat := 100000

end Machine

/-- The fault in words. -/
def Fault.message : Fault → String
  | doesNotTerminate => "program does not terminate"
  | jumpBeforeStart pos => s!"jump before the program at {pos}"
  | jumpIntoInstr pos => s!"jump into the middle of an instruction at {pos}"
  | unbalancedStack sp =>
    s!"stack pointer ends at {hexText sp}, not {hexText Machine.stackTop}"
  | unknownVariable name => s!"no variable named {name}"
  | routineEnds routine => s!"{routine.label} runs past its last line"
  | routineLabel routine label => s!"{routine.label} jumps to unknown label {label}"
  | routineReturn routine address => s!"{routine.label} returns to {hexText address}"
  | routineLoops routine => s!"{routine.label} does not return"

/-- The state of the machine. -/
structure Machine where
  registers : Registers Byte := .replicate Machine.unset
  sp : Word := Machine.stackTop
  zero : Bool := false
  carry : Bool := false
  memory : Memory := {}
  /-- Where the variables are. -/
  addresses : List (String × Word) := []

namespace Machine

/-- Addresses of symbols that lie one after the other. -/
def layout (next : Word) : List Symbol → List (String × Word)
  | [] => []
  | s :: rest => (s.name, next) :: layout (next + BitVec.ofNat 16 s.size) rest

/-- The machine before a program runs. -/
def ofSymbols (symbols : SymbolTable) : Machine :=
  { addresses := layout dataBase symbols.toList }

/-- Address of a variable. -/
def addressOf? (m : Machine) (name : String) : Option Word :=
  m.addresses.lookup name

/-! ## Registers and pairs -/

/-- The address in HL. -/
def hl (m : Machine) : Word :=
  m.registers.h ++ m.registers.l

/-- The byte in a register, or that HL points at. -/
def get (m : Machine) (r : Reg) : Byte :=
  match r with
  | .m => m.memory.read m.hl
  | _ => m.registers.get r

/-- Change a register, or the byte that HL points at. -/
def set (m : Machine) (r : Reg) (value : Byte) : Machine :=
  match r with
  | .m => { m with memory := m.memory.write m.hl value }
  | _ => { m with registers := m.registers.set r value }

/-- The flags as they are pushed. -/
def flags (m : Machine) : Byte :=
  (if m.zero then 0x40 else 0) ||| (if m.carry then 0x01 else 0)

/-- The word in a pair. -/
def pair (m : Machine) : Pair → Word
  | .b => m.registers.b ++ m.registers.c
  | .d => m.registers.d ++ m.registers.e
  | .h => m.hl
  | .sp => m.sp
  | .psw => m.registers.a ++ m.flags

/-- Change a pair. -/
def setPair (m : Machine) (p : Pair) (value : Word) : Machine :=
  let high := value.extractLsb' 8 8
  let low := value.extractLsb' 0 8
  match p with
  | .b => { m with registers := { m.registers with b := high, c := low } }
  | .d => { m with registers := { m.registers with d := high, e := low } }
  | .h => { m with registers := { m.registers with h := high, l := low } }
  | .sp => { m with sp := value }
  | .psw =>
    { m with
      registers := { m.registers with a := high }
      zero := low.getLsbD 6
      carry := low.getLsbD 0 }

/-! ## Memory -/

/-- Change the byte at an address. -/
def store (m : Machine) (address : Word) (value : Byte) : Machine :=
  { m with memory := m.memory.write address value }

/-- Change the word at an address. -/
def storeWord (m : Machine) (address : Word) (value : Word) : Machine :=
  { m with memory := m.memory.writeWord address value }

/-- Push a word. -/
def push (m : Machine) (value : Word) : Machine :=
  let sp := m.sp - 2
  { m with sp, memory := m.memory.writeWord sp value }

/-- Pop a word. -/
def pop (m : Machine) : Word × Machine :=
  (m.memory.readWord m.sp, { m with sp := m.sp + 2 })

/-- The value of an immediate. -/
def imm (m : Machine) : Imm → Except Fault Word
  | .num value => .ok (BitVec.ofInt 16 value)
  | .sym name offset =>
    match m.addressOf? name with
    | some base => .ok (base + BitVec.ofInt 16 offset)
    | none => .error (.unknownVariable name)

end Machine

end Accumulator
