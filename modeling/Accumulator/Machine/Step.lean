import Accumulator.Machine.Basic

/-!
# Single instructions

What an instruction does to the machine. Jumps and halts are left to the run, which knows the
code. A call runs the lines of its routine.
-/

namespace Accumulator.Machine

/-- Result and carry of an operation on two bytes. -/
def aluResult (op : AluOp) (x y : Byte) : Byte × Bool :=
  match op with
  | .add => (x + y, x.uaddOverflow y)
  | .sub | .cmp => (x - y, x.usubOverflow y)
  | .and => (x &&& y, false)
  | .or => (x ||| y, false)
  | .xor => (x ^^^ y, false)

/-- An operation on the accumulator. A comparison sets the flags only. -/
def alu (m : Machine) (op : AluOp) (value : Byte) : Machine :=
  let (result, carry) := aluResult op m.registers.a value
  let m := { m with zero := result == 0, carry }
  if op = .cmp then m else m.set .a result

/-- Subtract a byte and the carry from the accumulator. -/
def subtractBorrow (m : Machine) (value : Byte) : Machine :=
  let partialResult := m.registers.a - value
  let carryIn : Byte := if m.carry then 1 else 0
  let result := partialResult - carryIn
  let carry := m.registers.a.usubOverflow value || partialResult.usubOverflow carryIn
  { m with zero := result == 0, carry }.set .a result

/-- Change a register and set the zero flag by it. The carry is left alone. -/
def setCounter (m : Machine) (r : Reg) (value : Byte) : Machine :=
  { m with zero := value == 0 }.set r value

/-- Shift the accumulator left through the carry. -/
def rotateLeft (m : Machine) : Machine :=
  let x := m.registers.a
  { m with carry := x.getLsbD 7 }.set .a ((x <<< 1) ||| (if m.carry then 1 else 0))

/-- Shift the accumulator right through the carry. -/
def rotateRight (m : Machine) : Machine :=
  let x := m.registers.a
  { m with carry := x.getLsbD 0 }.set .a ((x >>> 1) ||| (if m.carry then 0x80 else 0))

/-- One instruction that stays in line. A call, a jump, a halt and a comment do nothing here. -/
def execute (m : Machine) : Instr → Except Fault Machine
  | .mov dst src => .ok (m.set dst (m.get src))
  | .mvi dst value => .ok (m.set dst value)
  | .lda address => do return m.set .a (m.memory.read (← m.imm address))
  | .sta address => do return m.store (← m.imm address) m.registers.a
  | .ldax p => .ok (m.set .a (m.memory.read (m.pair p)))
  | .stax p => .ok (m.store (m.pair p) m.registers.a)
  | .alu op src => .ok (m.alu op (m.get src))
  | .aluImm op value => .ok (m.alu op value)
  | .inr r => .ok (m.setCounter r (m.get r + 1))
  | .dcr r => .ok (m.setCounter r (m.get r - 1))
  | .cma => .ok (m.set .a (~~~m.registers.a))
  | .ral => .ok m.rotateLeft
  | .rar => .ok m.rotateRight
  | .lxi p value => do return m.setPair p (← m.imm value)
  | .lhld address => do return m.setPair .h (m.memory.readWord (← m.imm address))
  | .shld address => do return m.storeWord (← m.imm address) m.hl
  | .inx p => .ok (m.setPair p (m.pair p + 1))
  | .dcx p => .ok (m.setPair p (m.pair p - 1))
  | .dad p =>
    .ok ({ m with carry := m.hl.uaddOverflow (m.pair p) }.setPair .h (m.hl + m.pair p))
  | .xchg => .ok ((m.setPair .d (m.pair .h)).setPair .h (m.pair .d))
  | .xthl => .ok ((m.storeWord m.sp m.hl).setPair .h (m.memory.readWord m.sp))
  | .push p => .ok (m.push (m.pair p))
  | .pop p =>
    let (value, m) := m.pop
    .ok (m.setPair p value)
  | .call _ | .jump .. | .hlt | .comment _ => .ok m

/-! ## Routines -/

/-- Return from a routine. -/
def returnFrom (m : Machine) (routine : Routine) : Except Fault Machine :=
  let (address, m) := m.pop
  if address = returnMark then .ok m else .error (.routineReturn routine address)

/-- Run a routine from one of its lines, for a number of steps. -/
def runRoutine (routine : Routine) : (steps : Nat) → (pos : Nat) → Machine → Except Fault Machine
  | 0, _, _ => .error (.routineLoops routine)
  | steps + 1, pos, m =>
    match routine.body[pos]? with
    | none => .error (.routineEnds routine)
    | some line =>
      match line.action with
      | .ret => m.returnFrom routine
      | .retZero => if m.zero then m.returnFrom routine else runRoutine routine steps (pos + 1) m
      | .goto label =>
        match routine.body.findIdx? (·.label = some label) with
        | none => .error (.routineLabel routine label)
        | some target => runRoutine routine steps target m
      | .subtractBorrow src =>
        runRoutine routine steps (pos + 1) (m.subtractBorrow (m.get src))
      | .instr i =>
        match m.execute i with
        | .error fault => .error fault
        | .ok m => runRoutine routine steps (pos + 1) m

/-- Call a routine. -/
def call (m : Machine) (routine : Routine) : Except Fault Machine :=
  runRoutine routine maxSteps 0 (m.push returnMark)

/-- One instruction, calls included. -/
def step (m : Machine) (i : Instr) : Except Fault Machine :=
  match i with
  | .call routine => m.call routine
  | _ => m.execute i

end Accumulator.Machine
