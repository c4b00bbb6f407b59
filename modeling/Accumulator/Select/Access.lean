import Accumulator.Select.Loading

/-!
# Access to memory

Array elements, addresses, pointers and assignments. An element or the target of a pointer is
first an address in a pair; a byte is read from there only when it is needed, a word at once.
-/

namespace Accumulator.Select

/-- The largest offset reached from the start of an array by increments. -/
def maxSteps : Int := 3

/-! ## Elements, addresses and pointers -/

/-- Add the start of an array to HL, through a pair that holds it or can hold it. -/
def addBase (base : String) : Selecting Unit := do
  let s ← get
  let start := Value.addr (.var base)
  let loaded := match s.regs.findPair? start with
    | some .d => some Pair.d
    | some .b => some Pair.b
    | _ => none
  match loaded with
  | some p => emit (.dad p)
  | none =>
    match [Pair.d, .b].find? (s.isFree ·) with
    | some p =>
      vacatePair p
      emit (.lxi p (.ofSymbol base))
      record (·.bindPair p start)
      emit (.dad p)
    | none => emitAll [.push .d, .lxi .d (.ofSymbol base), .dad .d, .pop .d]

/-- Put the address of an element at a constant position into HL. -/
def addressConstElement (base : String) (offset : Int) : Selecting Unit := do
  let s ← get
  if s.regs.findPair? (.addr (.var base)) = some .h ∧ 0 ≤ offset ∧ offset ≤ maxSteps then
    emitAll (List.replicate offset.toNat (.inx .h))
  else
    let _ ← vacateHL none
    emit (.lxi .h (.sym base offset))

/-- Put the address of an element at a computed position into HL. -/
def addressElement (base : String) (width : Width) (position : Operand) : Selecting Unit := do
  loadHL (.of position)
  preserveHL
  match width with
  | .word => emit (.dad .h)
  | .byte => pure ()
  addBase base

/-- Read the word element whose address is in HL, keeping the address if it is needed later. -/
def loadElement (id : Nat) : Selecting Unit := do
  let s ← get
  let address := Value.addr (.temp id)
  if s.isLiveAfter address then
    if s.isFree .d then copyPair .h .d
    else if s.isFree .b then copyPair .h .b
    else let _ ← spillHL address none
  saveAccumulator false
  emitAll [.mov .a .m, .inx .h, .mov .h .m, .mov .l .a]
  record fun rf => (rf.clear .a).bindPair .h (.temp id)

/-- The symbol of an array. -/
def arraySymbol (t : Triple) (base : String) : Selecting Symbol := do
  match (← get).symbols.get? base with
  | some symbol => if symbol.isArray then return symbol else rejectIllegal t (.notArray base)
  | none => rejectIllegal t (.notArray base)

/-- Select an array element. Its address is in HL, or its value if it is a word that is read. -/
def selectIndex (t : Triple) : Selecting Unit := do
  match t.lhs with
  | .var base =>
    let symbol ← arraySymbol t base
    match t.rhs with
    | none => rejectIllegal t .missingIndex
    | some (.const k) =>
      match checkedMul k symbol.width.size with
      | .ok offset => addressConstElement base offset
      | .error kind => throw (.overflow kind)
    | some position => addressElement base symbol.width position
    record (·.bindPair .h (.addr (.temp t.id)))
    if t.width = .word ∧ !t.addressOnly then
      loadElement t.id
  | other => rejectIllegal t (.indexOf other)

/-- The pair that holds an address, which may have to come back from the save slot. -/
def locateAddress (address : Value) : Selecting Pair := do
  let s ← get
  match s.regs.findPair? address with
  | some p => return p
  | none =>
    if s.isSaved address then
      loadHL address
      return .h
    else
      rejectTooComplex

/-- The address of an element, in the pair that holds it or in HL. If the element is used again,
the result is a copy. -/
def addressOfElement (t : Triple) (id : Nat) : Selecting Unit := do
  let element := Value.addr (.temp id)
  let result := Value.temp t.id
  let p ← locateAddress element
  let s ← get
  let neededLater := s.isLiveAfter element || s.isLiveAfter (.temp id)
  if neededLater && !t.noSave then
    match p, p.halves? with
    | .h, _ =>
      preserveHL
      record (·.bindPair .h result)
    | _, some (high, low) =>
      let _ ← vacateHL none
      emitAll [.mov .h high, .mov .l low]
      record (·.bindPair .h result)
    | _, none => record (·.bindPair p result)
  else
    record (·.bindPair p result)

/-- The triple an operand refers to is an array element. -/
def isElement (s : State) (id : Nat) : Bool :=
  (Triple.find? s.triples id).any (·.op = .index)

/-- Select an address. -/
def selectAddress (t : Triple) : Selecting Unit := do
  match t.lhs with
  | .var name =>
    let _ ← vacateHL none
    emit (.lxi .h (.ofSymbol name))
    record (·.bindPair .h (.temp t.id))
  | .temp id =>
    if isElement (← get) id then
      addressOfElement t id
    else
      rejectIllegal t (.addressOfTemp t.lhs)
  | .const c => rejectIllegal t (.addressOfConst c)

/-- A byte variable is too narrow for a pointer. -/
def requirePointer (t : Triple) : Selecting Unit := do
  match t.lhs with
  | .var name =>
    if (← get).symbols.widthOf name = .byte then
      rejectIllegal t (.bytePointer name)
  | _ => pure ()

/-- Select the target of a pointer. Its address is in HL. -/
def selectDeref (t : Triple) : Selecting Unit := do
  requirePointer t
  loadHL (.of t.lhs)
  preserveHL
  record (·.bindPair .h (.addr (.temp t.id)))

/-! ## Assignments -/

/-- Store a byte at the address in HL. -/
def storeAtHL (v : Value) : Selecting Unit := do
  let s ← get
  match (s.regs.findByte? v).filter (fun r => r ≠ .h && r ≠ .l), v with
  | some r, _ => emit (.mov .m r)
  | none, .of (.const c) => emit (.mvi .m (lowByte c))
  | none, _ =>
    loadAccumulator v
    emit (.mov .m .a)

/-- Store a byte at an address. The byte is loaded before the address is touched. -/
def storeByte (address v : Value) : Selecting Unit := do
  if (← get).needsAccumulator v then
    loadAccumulator v
  match ← locateAddress address with
  | .h => storeAtHL v
  | p =>
    loadAccumulator v
    emit (.stax p)

/-- Store the word in DE at the address in HL. -/
def storeFromDE (address : Value) : Selecting Unit := do
  let keep := (← get).mustKeep address [.h, .l] true
  emitAll [.mov .m .e, .inx .h, .mov .m .d]
  if keep then
    emit (.dcx .h)
  else
    record (·.clearPair .h)

/-- Load a word into HL and store it at the address in DE or BC. -/
def storeFromHL (p : Pair) (address v : Value) : Selecting Unit := do
  loadHL v
  match p.halves? with
  | none => rejectTooComplex
  | some (high, low) =>
    let keep := (← get).mustKeep address [high, low] true
    saveAccumulator false
    emitAll [.mov .a .l, .stax p, .inx p, .mov .a .h, .stax p]
    record (·.clear .a)
    if keep then
      emit (.dcx p)
    else
      record (·.clearPair p)

/-- Store a word at an address. With the address in HL the word goes to DE if it is there or cheap
to load; otherwise the address leaves HL for the word. -/
def storeWord (address v : Value) : Selecting Unit := do
  match ← locateAddress address with
  | .h =>
    let s ← get
    if s.isInPair v .d || (v.isConst && s.isFree .d) then
      loadPair .d v
      storeFromDE address
    else
      exchange
      storeFromHL .d address v
  | p => storeFromHL p address v

/-- Assign to a variable. Registers that hold the value hold the variable afterwards, unless the
value is needed under its old name. -/
def storeVariable (name : String) (v : Value) : Selecting Unit := do
  let s ← get
  let width := s.symbols.widthOf name
  match width with
  | .byte =>
    if s.regs.findPair? (.addr (.var name)) = some .h then
      storeAtHL v
    else
      loadAccumulator v
      emit (.sta (.ofSymbol name))
  | .word =>
    loadHL v
    emit (.shld (.ofSymbol name))
  forgetStale (some name) v
  let s ← get
  if !s.isLiveAfter v && s.widthOf v = width then
    retag v (.var name)

/-- Assign to an array element. -/
def storeElement (target : Triple) (v : Value) : Selecting Unit := do
  let address := Value.addr (.temp target.id)
  match target.width with
  | .byte => storeByte address v
  | .word => storeWord address v
  forgetStale target.lhs.var? v

/-- Assign a byte to what a pointer points at. Any variable may be written. -/
def storeThroughPointer (t : Triple) (v : Value) : Selecting Unit := do
  requirePointer t
  let s ← get
  if s.widthOf v = .word then
    rejectIllegal t .wordThroughPointer
  if !v.isConst && (s.regs.findByte? v).isNone then
    loadAccumulator v
  loadHL (.of t.lhs)
  storeAtHL v
  forgetStale none v

/-- Select an assignment. -/
def selectAssign (t : Triple) : Selecting Unit := do
  match t.rhs with
  | none => rejectIllegal t .missingValue
  | some rhs =>
    let v := Value.of rhs
    if t.throughPointer then
      storeThroughPointer t v
    else
      match t.lhs with
      | .var name => storeVariable name v
      | .const c => rejectIllegal t (.constTarget c)
      | .temp id =>
        match Triple.find? (← get).triples id with
        | none => rejectIllegal t .computedTarget
        | some target =>
          match target.op with
          | .index => storeElement target v
          | .deref =>
            storeByte (.addr (.temp target.id)) v
            forgetStale none v
          | _ => rejectIllegal t .computedTarget

end Accumulator.Select
