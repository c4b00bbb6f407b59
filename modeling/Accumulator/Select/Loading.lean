import Accumulator.Routine
import Accumulator.Select.Spilling

/-!
# Loading values

Steps that bring a value into the accumulator, a register or a pair. A value that is already in a
register is moved; else it comes from the save slot, from memory or as an immediate.

A byte may have to be loaded into HL through the accumulator, and a byte in memory may have to be
loaded into the accumulator through HL. The two do not go round in circles: an address is never a
byte, so `loadHLDirect`, which does not use the accumulator, is all that the second needs.
-/

namespace Accumulator.Select

/-- Load a value from the pairs or the save slot into HL. The answer is false if it is in
neither. -/
def loadHLHeld (v : Value) : Selecting Bool := do
  let s ← get
  match s.regs.findWide? v with
  | some (.h, m) =>
    if m = .full ∨ s.isByte v then
      return true
  | some (.d, m) =>
    if m = .full ∨ s.isByte v then
      exchange
      return true
  | some (.b, m) =>
    if m = .full ∨ s.isByte v then
      if ← vacateHL (some v) then
        return true
      copyPair .b .h
      return true
  | _ => pure ()
  if s.isSaved v then
    if ← vacateHL (some v) then
      return true
    popSpill .h
    return true
  return false

/-- Load a value into HL without using the accumulator. The answer is false if that cannot be
done. -/
def loadHLDirect (v : Value) : Selecting Bool := do
  if ← loadHLHeld v then
    return true
  let s ← get
  match v with
  | .of (.const c) =>
    let _ ← vacateHL none
    emit (.lxi .h (.num (c % 65536)))
    record (·.bindPair .h v)
    return true
  | .of (.var name) =>
    if s.isByte v then
      return false
    let _ ← vacateHL none
    emit (.lhld (.ofSymbol name))
    record (·.bindPair .h v)
    return true
  | .addr (.var name) =>
    let _ ← vacateHL none
    emit (.lxi .h (.ofSymbol name))
    record (·.bindPair .h v)
    return true
  | _ => return false

/-- Load the byte at the address of an operand into the accumulator. -/
def loadFromAddress (o : Operand) : Selecting Unit := do
  let address := Value.addr o
  match (← get).regs.findPair? address with
  | some .d => emit (.ldax .d)
  | some .b => emit (.ldax .b)
  | _ =>
    if ← loadHLDirect address then
      emit (.mov .a .m)
    else
      rejectTooComplex

/-- Load the low byte of a word into the accumulator. -/
def loadLowByte (v : Value) : Selecting Unit := do
  let s ← get
  match s.regs.findWide? v with
  | some (p, _) =>
    match p.halves? with
    | some (_, low) => emit (.mov .a low)
    | none => rejectTooComplex
  | none =>
    if s.isSaved v then
      if ← loadHLDirect v then
        emit (.mov .a .l)
      else
        rejectTooComplex
    else
      rejectTooComplex

/-- Load a value that the accumulator does not hold. -/
def fillAccumulator (v : Value) : Selecting Unit := do
  let s ← get
  match s.regs.findByte? v with
  | some r => emit (.mov .a r)
  | none =>
    if s.isAtM v then
      emit (.mov .a .m)
    else
      match v with
      | .of (.const c) => emit (.mvi .a (lowByte c))
      | .of (.var name) => emit (.lda (.ofSymbol name))
      | .of o => if s.isMemoryOperand o then loadFromAddress o else loadLowByte v
      | .addr _ => loadLowByte v

/-- Load a byte, or the low byte of a word, into the accumulator. The low byte of a word is not
recorded as its value, except for variables. -/
def loadAccumulator (v : Value) : Selecting Unit := do
  if (← get).regs.holds .a v then
    return
  saveAccumulator false
  fillAccumulator v
  if (← get).isByte v || v.isVar then
    record (·.bind .a v)
  else
    record (·.clear .a)

/-- A register other than those in `avoid` that holds a byte, the accumulator if it has to be
loaded. -/
def locateByte (v : Value) (avoid : List Reg) : Selecting Reg := do
  match (← get).regs.findByte? v with
  | some r =>
    if avoid.contains r then
      loadAccumulator v
      return .a
    else
      return r
  | none =>
    loadAccumulator v
    return .a

/-- Load a word or an extended byte into HL. -/
def loadHL (v : Value) : Selecting Unit := do
  if ← loadHLDirect v then
    return
  match v with
  | .of _ =>
    if (← get).isByte v then
      let r ← locateByte v [.h, .l]
      let _ ← vacateHL none
      emitAll [.mov .l r, .mvi .h 0]
      record (·.bindExtended .h v)
    else
      rejectTooComplex
  | .addr _ => rejectTooComplex

/-- Load a word variable into DE or BC. The only way is through HL, whose value is set aside if it
is needed. -/
def loadPairVariable (p : Pair) (name : String) : Selecting Unit := do
  let address := Imm.ofSymbol name
  if p = .d then
    if (← get).isFree .h then
      let _ ← vacateHL none
      emitAll [.lhld address, .xchg]
    else
      emitAll [.xchg, .lhld address, .xchg]
    record (·.bindPair .d (.var name))
  else
    emitAll [.push .h, .lhld address, .mov .b .h, .mov .c .l, .pop .h]
    record (·.bindPair .b (.var name))

/-- Load a value from the pairs or the save slot into DE or BC. The answer is false if it is in
neither. -/
def loadPairHeld (p : Pair) (v : Value) : Selecting Bool := do
  let s ← get
  match s.regs.findWide? v with
  | some (q, m) =>
    if m = .full ∨ s.isByte v then
      if q ≠ p then
        vacatePair p
        copyPair q p
      return true
  | none => pure ()
  if s.isSaved v then
    vacatePair p
    popSpill p
    return true
  return false

/-- Load a word or an extended byte into DE or BC. -/
def loadPair (p : Pair) (v : Value) : Selecting Unit := do
  match p.halves? with
  | none => rejectTooComplex
  | some (high, low) =>
    if ← loadPairHeld p v then
      return
    let s ← get
    match v with
    | .of (.const c) =>
      vacatePair p
      emit (.lxi p (.num (c % 65536)))
      record (·.bindPair p v)
    | .addr (.var name) =>
      vacatePair p
      emit (.lxi p (.ofSymbol name))
      record (·.bindPair p v)
    | .of o =>
      if s.isByte v then
        let r ← locateByte v [high, low]
        vacatePair p
        emitAll [.mov low r, .mvi high 0]
        record (·.bindExtended p v)
      else
        match o with
        | .var name =>
          vacatePair p
          loadPairVariable p name
        | _ => rejectTooComplex
    | .addr _ => rejectTooComplex

/-- Where a byte can be moved from: a register, `m`, or the accumulator once it is loaded. -/
def byteSource (v : Value) : Selecting Reg := do
  let s ← get
  match s.regs.findByte? v with
  | some r => return r
  | none =>
    if s.isAtM v then
      return .m
    loadAccumulator v
    return .a

/-- Load a byte into a register. -/
def loadReg (r : Reg) (v : Value) : Selecting Unit := do
  if (← get).regs.holds r v then
    return
  match v with
  | .of (.const c) =>
    vacateReg r
    emit (.mvi r (lowByte c))
  | _ =>
    let source ← byteSource v
    vacateReg r
    emit (.mov r source)
  record (·.bind r v)

/-- Call a routine. -/
def callRoutine (routine : Routine) : Selecting Unit := do
  emit (.call routine)
  record fun rf => routine.clobbers.foldl (·.clear ·) rf
  if routine.zeroesCount then
    record (·.bind .c (.const 0))

/-- Registers that hold one value hold another from now on. -/
def retag (v w : Value) : Selecting Unit :=
  record fun rf =>
    let pairs := RegisterFile.searchOrder.foldl
      (fun rf p => if rf.pairValue? p = some v then rf.bindPair p w else rf) rf
    Reg.all.foldl (fun rf r => if rf.holds r v then rf.bind r w else rf) pairs

/-- An assignment to `written`, or to an unknown address if that is none, may change the value. -/
def isStale (triples : List Triple) (written : Option String) : Value → Bool
  | .of (.var name) =>
    match written with
    | none => true
    | some target => target = name
  | .of (.temp id) =>
    match Triple.find? triples id with
    | some t => t.op = .deref || (t.op = .index && (written.isNone || t.lhs.var? = written))
    | none => false
  | _ => false

/-- Forget copies of memory that an assignment may have changed. The value just stored stays. -/
def forgetStale (written : Option String) (stored : Value) : Selecting Unit := do
  let s ← get
  record (·.forget fun v => v ≠ stored && isStale s.triples written v)

end Accumulator.Select
