import Accumulator.Select.Loading

/-!
# Arithmetic

Bytes are computed in the accumulator, words in HL with DE or BC as the second operand. Word
subtraction and shifts by more than a few places call routines. A comparison turns a flag into
0 or 1 by skipping one instruction.
-/

namespace Accumulator.Select

/-- Turn a flag into 1 or 0 in the accumulator: the jump skips the instruction that clears it. -/
def emitFlag (cond : Cond) : Selecting Unit :=
  emitAll [.mvi .a 1, .jump cond 4, .alu .xor .a]

/-! ## Bytes -/

/-- Second operand of an accumulator instruction. -/
inductive Source where
  | reg (r : Reg)
  | imm (value : Byte)

/-- The accumulator instruction with a second operand. -/
def Source.instr (op : AluOp) : Source → Instr
  | reg r => .alu op r
  | imm value => .aluImm op value

/-- The accumulator operation of an operator. -/
def aluOp? : Op → Option AluOp
  | .add => some .add
  | .sub => some .sub
  | .and => some .and
  | .or => some .or
  | .xor => some .xor
  | op => if op.isComparison then some .cmp else none

/-- Order of the operands of a byte comparison, and the constant to compare with instead, given the
order that is cheaper to load. The carry separates less from greater-or-equal, so `x > k` is
tested as `x >= k + 1` and `x <= k` as `x < k + 1`; where there is no such constant the other order
is taken. A constant on the left of `>=` is compared as it is. -/
def orient (relation : Relation) (swapped : Bool) (lhs rhs : Operand) : Bool × Option Int :=
  if relation.isExact swapped then
    (swapped, none)
  else
    match (if swapped then lhs else rhs).const? with
    | none => (!swapped, none)
    | some k =>
      if swapped ∧ relation = .ge then (swapped, none)
      else if (lowByte k).toNat < 255 then (swapped, some ((lowByte k).toNat + 1))
      else (!swapped, none)

/-- Loading `y` into the accumulator instead of `x` saves a load. -/
def prefersSwap (s : State) (x y : Value) : Bool :=
  let uncached (v : Value) : Bool := v.isVar && (s.regs.findByte? v).isNone && !s.isAtM v
  (s.regs.holds .a y && !s.regs.holds .a x) ||
    (x.isConst && !y.isConst) ||
    (s.isAtM x && (s.regs.findByte? x).isNone && uncached y)

/-- Where an accumulator instruction takes its second operand from. -/
def secondOperand (v : Value) : Selecting Source := do
  let s ← get
  match s.regs.findByte? v with
  | some r => return .reg r
  | none =>
    if s.isAtM v then
      return .reg .m
    match v with
    | .of (.const c) =>
      if s.isReadOnce c then
        return .imm (lowByte c)
      let r ← takeWork []
      emit (.mvi r (lowByte c))
      record (·.bind r v)
      return .reg r
    | .of (.var name) =>
      let _ ← vacateHL none
      emit (.lxi .h (.ofSymbol name))
      record (·.bindPair .h (.addr (.var name)))
      return .reg .m
    | _ => rejectTooComplex

/-- A second operand that only the accumulator can load is put into a work register first, unless
it is a variable that HL can address. -/
def prepareSecond (v : Value) : Selecting Unit := do
  let s ← get
  if s.needsAccumulator v && !(v.isVar && s.isFree .h) then
    loadAccumulator v
    let r ← takeWork []
    emit (.mov r .a)
    record (·.bind r v)

/-- Load a value into the accumulator to change it there. -/
def loadForChange (v : Value) : Selecting Unit := do
  loadAccumulator v
  saveAccumulator true

/-- A binary operation on bytes. With the right operand in the accumulator, a difference is the
negated operand plus the other. -/
def selectByteBinary (t : Triple) : Selecting Unit := do
  match t.rhs with
  | none => rejectIllegal t .missingOperand
  | some rhs =>
    let s ← get
    let cheap := t.op.isSwappable && prefersSwap s (.of t.lhs) (.of rhs)
    let (swapped, raised) := match t.op.relation? with
      | some relation => orient relation cheap t.lhs rhs
      | none => (cheap, none)
    let primary := Value.of (if swapped then rhs else t.lhs)
    let secondary := match raised with
      | some k => .const k
      | none => Value.of (if swapped then t.lhs else rhs)
    prepareSecond secondary
    loadAccumulator primary
    let source ← secondOperand secondary
    saveAccumulator true
    match aluOp? t.op with
    | none => rejectIllegal t (.onBytes t.op)
    | some op =>
      if t.op = .sub ∧ swapped then
        emitAll [.cma, .inr .a, source.instr .add]
      else
        emit (source.instr op)
    match t.op.relation? with
    | some relation => emitFlag (relation.condition swapped)
    | none => pure ()

/-- A shift of a byte: by one place through the carry, otherwise by the routine, which counts
in `c`. -/
def selectByteShift (t : Triple) : Selecting Unit := do
  let value := Value.of t.lhs
  match t.rhs with
  | none => rejectIllegal t .missingShiftCount
  | some (.const 0) => loadForChange value
  | some (.const 1) =>
    loadForChange value
    emitAll [.alu .or .a, if t.op = .shl then .ral else .rar]
  | some count =>
    loadReg .c (.of count)
    loadForChange value
    keepByte (.of count) .c [.c] true
    callRoutine (if t.op = .shl then .shiftLeft else .shiftRight)

/-- Select a byte operation. The result is in the accumulator. -/
def selectByte (t : Triple) : Selecting Unit := do
  match t.op with
  | .inc =>
    loadForChange (.of t.lhs)
    emitAll (List.replicate t.repetitions (.inr .a))
  | .dec =>
    loadForChange (.of t.lhs)
    emitAll (List.replicate t.repetitions (.dcr .a))
  | .inv =>
    loadForChange (.of t.lhs)
    emit .cma
  | .shl | .shr => selectByteShift t
  | _ => selectByteBinary t
  record (·.bind .a (.temp t.id))

/-! ## Words -/

/-- The largest left shift done by doubling HL. -/
def maxDoublings : Int := 3

/-- Load a word into HL to change it there. -/
def loadHLForChange (v : Value) : Selecting Unit := do
  loadHL v
  preserveHL

/-- Load `x` into HL and `y` into a second pair, which is the answer. `fixed` prescribes the pair;
otherwise it is one that already holds `y`, if there is one that does not hold `x`. -/
def placeOperands (x y : Value) (fixed : Option Pair) : Selecting Pair := do
  let s ← get
  let held := [Pair.d, .b].find? (s.isInPair y ·)
  let p := match fixed, held with
    | some p, _ => p
    | none, some p => if s.isInPair x p then s.secondPair else p
    | none, none => s.secondPair
  if x = y then
    loadHL x
    vacatePair p
    copyPair .h p
  else if s.isInPair x .h then
    loadPair p y
    -- Loading `y` may have gone through HL.
    if !(← get).isInPair x .h then
      loadHL x
  else if s.isInPair y .h then
    if p = .d && (s.isInPair x .d || s.isFree .d) then
      exchange
    else
      loadPair p y
    loadHL x
  else
    loadPair p y
    loadHL x
  return p

/-- Change HL byte by byte through the accumulator, low half first. -/
def emitBytewise (low high : Instr) : Selecting Unit :=
  emitAll [.mov .a .l, low, .mov .l .a, .mov .a .h, high, .mov .h .a]

/-- A sum of words. -/
def selectWordAdd (x y : Value) : Selecting Unit := do
  if x = y then
    loadHLForChange x
    emit (.dad .h)
  else
    let p ← placeOperands x y none
    preserveHL
    emit (.dad p)

/-- A bitwise operation on words. -/
def selectWordBitwise (op : AluOp) (x y : Value) : Selecting Unit := do
  match y with
  | .of (.const c) =>
    loadHLForChange x
    saveAccumulator false
    emitBytewise (.aluImm op (lowByte c)) (.aluImm op (highByte c))
  | _ =>
    let p ← placeOperands x y none
    match p.halves? with
    | none => rejectTooComplex
    | some (high, low) =>
      preserveHL
      saveAccumulator false
      emitBytewise (.alu op low) (.alu op high)
  record (·.clear .a)

/-- The difference of two words: HL minus DE, and the flags. -/
def subtractWords (x y : Value) : Selecting Unit := do
  let _ ← placeOperands x y (some .d)
  preserveHL
  saveAccumulator false
  callRoutine .subtractWord

/-- A comparison of words. It subtracts, the other way round where only then the carry answers. The
result is in the accumulator. -/
def selectWordCompare (t : Triple) (x y : Value) : Selecting Unit := do
  match t.op.relation? with
  | none => rejectIllegal t .notComparison
  | some relation =>
    let s ← get
    let swapped := match t.op with
      | .gt | .le => true
      | .eq | .ne => s.isInPair y .h && !s.isInPair x .h
      | _ => false
    if swapped then subtractWords y x else subtractWords x y
    if t.op.isCommutative then
      emitAll [.mov .a .h, .alu .or .l]
    emitFlag (relation.condition swapped)
    record (·.bind .a (.temp t.id))

/-- A shift of a word: left by a few places by doubling, otherwise by the routine, which counts
in `c`. -/
def selectWordShift (t : Triple) : Selecting Unit := do
  let x := Value.of t.lhs
  match t.rhs with
  | none => rejectIllegal t .missingShiftCount
  | some count =>
    let doublings := match count.const? with
      | some n => if t.op = Op.shl ∧ 0 ≤ n ∧ n ≤ maxDoublings then some n.toNat else none
      | none => none
    match doublings with
    | some n =>
      loadHLForChange x
      emitAll (List.replicate n (.dad .h))
    | none =>
      loadReg .c (.of count)
      loadHLForChange x
      let routine : Routine := if t.op = Op.shl then .shiftLeftWord else .shiftRightWord
      if routine.clobbers.contains .a then
        saveAccumulator false
      keepByte (.of count) .c [.c] true
      callRoutine routine

/-- The right operand of a word operation. -/
def rightOperand (t : Triple) : Selecting Value :=
  match t.rhs with
  | some rhs => return .of rhs
  | none => rejectIllegal t .missingOperand

/-- Operands of a commutative operation, exchanged if only the right one is in HL. -/
def commuteOperands (t : Triple) : Selecting (Value × Value) := do
  let x := Value.of t.lhs
  let y ← rightOperand t
  let s ← get
  return if s.isInPair y .h && !s.isInPair x .h then (y, x) else (x, y)

/-- Select a word operation. The result is in HL, that of a comparison in the accumulator. -/
def selectWord (t : Triple) : Selecting Unit := do
  let x := Value.of t.lhs
  let result := Value.temp t.id
  match t.op with
  | .inc =>
    loadHLForChange x
    emitAll (List.replicate t.repetitions (.inx .h))
    record (·.bindPair .h result)
  | .dec =>
    loadHLForChange x
    emitAll (List.replicate t.repetitions (.dcx .h))
    record (·.bindPair .h result)
  | .inv =>
    loadHLForChange x
    saveAccumulator false
    emitBytewise .cma .cma
    record fun rf => (rf.clear .a).bindPair .h result
  | .shl | .shr =>
    selectWordShift t
    record (·.bindPair .h result)
  | .add =>
    let (x, y) ← commuteOperands t
    selectWordAdd x y
    record (·.bindPair .h result)
  | .and =>
    let (x, y) ← commuteOperands t
    selectWordBitwise .and x y
    record (·.bindPair .h result)
  | .or =>
    let (x, y) ← commuteOperands t
    selectWordBitwise .or x y
    record (·.bindPair .h result)
  | .xor =>
    let (x, y) ← commuteOperands t
    selectWordBitwise .xor x y
    record (·.bindPair .h result)
  | .sub =>
    let y ← rightOperand t
    subtractWords x y
    record (·.bindPair .h result)
  | op =>
    if op.isComparison then
      let y ← rightOperand t
      selectWordCompare t x y
    else
      rejectIllegal t (.onWords op)

end Accumulator.Select
