import Accumulator.Select.State

/-!
# Making room

Steps that make registers safe to overwrite. A value that is needed and would be lost moves to
another register or pair, or to the save slot; if there is no place for it, the program is
rejected.
-/

namespace Accumulator.Select

/-- A step of the selection. -/
abbrev Selecting := EStateM Failure State

/-- Reject the program. -/
def reject {α : Type} (reason : Rejection) : Selecting α :=
  throw (.rejected reason)

/-- Reject the current triple as illegal. -/
def rejectIllegal {α : Type} (t : Triple) (reason : Illegality) : Selecting α :=
  reject (.illegal t.id reason)

/-- Reject the program for a value that cannot be had. -/
def rejectTooComplex {α : Type} : Selecting α := do
  reject (.tooComplex (← get).currentId)

/-- Append an instruction. -/
def emit (i : Instr) : Selecting Unit :=
  modify fun s => { s with code := s.code ++ [i] }

/-- Append instructions. -/
def emitAll (is : List Instr) : Selecting Unit :=
  modify fun s => { s with code := s.code ++ is }

/-- Update the record of the registers. -/
def record (f : RegisterFile → RegisterFile) : Selecting Unit :=
  modify fun s => { s with regs := f s.regs }

/-- Take a work register. -/
def takeWork (exclude : List Reg) : Selecting Reg := do
  let s ← get
  match s.workRegister? exclude with
  | some r =>
    record (·.clear r)
    return r
  | none => reject (.noFreeWorkRegister s.currentId)

/-- Copy a register that holds `v` into a work register if overwriting `lost` would lose `v`. -/
def keepByte (v : Value) (r : Reg) (lost : List Reg) (afterCurrent : Bool) : Selecting Unit := do
  if (← get).mustKeep v lost afterCurrent then
    let target ← takeWork lost
    emit (.mov target r)
    record (·.bind target v)

/-- Keep the byte a register holds, if it holds one. -/
def keepScalar (r : Reg) (lost : List Reg) (afterCurrent : Bool) : Selecting Unit := do
  match (← get).regs.get r with
  | .scalar v => keepByte v r lost afterCurrent
  | _ => return

/-- Copy the accumulator into a work register if its value would be lost. -/
def saveAccumulator (afterCurrent : Bool) : Selecting Unit := do
  let s ← get
  match (s.regs.get .a).value? with
  | none => return
  | some v =>
    if s.mustKeep v [.a] afterCurrent then
      match s.workRegister? [] with
      | some r =>
        record (·.clear r)
        emit (.mov r .a)
        record (·.bind r v)
      | none => reject (.cannotSaveAccumulator s.currentId)

/-- Exchange DE and HL. -/
def exchange : Selecting Unit := do
  emit .xchg
  record (·.swapPairs .d .h)

/-- Copy a pair into another, high half first. -/
def copyPair (source target : Pair) : Selecting Unit := do
  match source.halves?, target.halves? with
  | some (sh, sl), some (th, tl) =>
    emitAll [.mov th sh, .mov tl sl]
    record (·.copyPair source target)
  | _, _ => return

/-- Push a pair with its value into the empty save slot. -/
def pushSpill (p : Pair) (v : Value) : Selecting Unit := do
  let s ← get
  emit (.push p)
  modify fun after => { after with spill := some { value := v, pushAt := s.code.length } }

/-- Put the value of HL into the save slot. If the slot holds the value that is about to be loaded,
the two are exchanged, and the answer is true. -/
def spillHL (v : Value) (incoming : Option Value) : Selecting Bool := do
  let s ← get
  match s.spill with
  | none =>
    pushSpill .h v
    return false
  | some slot =>
    if incoming = some slot.value then
      emit .xthl
      modify fun after => { after with spill := some { slot with value := v, exchanged := true } }
      record (·.bindPair .h slot.value)
      return true
    else
      reject (.saveSlotOccupied s.currentId)

/-- Make HL safe to overwrite. The answer is true if HL already holds the value about to be
loaded. -/
def vacateHL (incoming : Option Value) : Selecting Bool := do
  let s ← get
  match s.regs.pairValue? .h with
  | some v =>
    if incoming = some v then
      return true
    else if s.mustKeep v [.h, .l] false then
      if s.isFree .d then
        exchange
        record (·.clearPair .h)
        return false
      else if s.isFree .b then
        copyPair .h .b
        record (·.clearPair .h)
        return false
      else if ← spillHL v incoming then
        return true
      else
        record (·.clearPair .h)
        return false
    else
      record (·.clearPair .h)
      return false
  | none =>
    keepScalar .h [.h, .l] false
    keepScalar .l [.h, .l] false
    record (·.clearPair .h)
    return false

/-- Before HL is changed in place, copy its value elsewhere if a later triple needs it. -/
def preserveHL : Selecting Unit := do
  let s ← get
  match s.regs.pairValue? .h with
  | some v =>
    if s.mustKeep v [.h, .l] true then
      if s.isFree .d then copyPair .h .d
      else if s.isFree .b then copyPair .h .b
      else let _ ← spillHL v none
  | none =>
    keepScalar .h [.h, .l] true
    keepScalar .l [.h, .l] true

/-- Find another place for the word in DE or BC. -/
def movePairAside (p : Pair) (v : Value) : Selecting Unit := do
  let s ← get
  let other : Pair := if p = .d then .b else .d
  if s.isFree other then
    copyPair p other
  else if p = .d ∧ s.isFree .h then
    let _ ← vacateHL none
    exchange
  else if s.spill.isNone then
    pushSpill p v
  else
    reject (.saveSlotOccupied s.currentId)

/-- Make DE or BC safe to overwrite. -/
def vacatePair (p : Pair) : Selecting Unit := do
  match p.halves? with
  | none => return
  | some (high, low) =>
    let s ← get
    match s.regs.pairValue? p with
    | some v =>
      if s.mustKeep v [high, low] false then
        movePairAside p v
    | none =>
      keepScalar high [high, low] false
      keepScalar low [high, low] false
    record (·.clearPair p)

/-- Make a register safe to overwrite. -/
def vacateReg (r : Reg) : Selecting Unit := do
  match (← get).regs.get r with
  | .empty => pure ()
  | .half _ _ =>
    match r.pair? with
    | none => pure ()
    | some .h => let _ ← vacateHL none
    | some p => vacatePair p
  | .scalar v => keepByte v r [r] false
  record (·.clear r)

/-- Pop the save slot into a pair. -/
def popSpill (p : Pair) : Selecting Unit := do
  match (← get).spill with
  | none => return
  | some slot =>
    modify fun s => { s with spill := none }
    emit (.pop p)
    record (·.bindPair p slot.value)

/-- Take back the push of a value that is no longer needed. -/
def dropDeadSpill : Selecting Unit := do
  let s ← get
  match s.spill with
  | none => return
  | some slot =>
    if !slot.exchanged && !s.isLive slot.value then
      set { s with spill := none, code := s.code.eraseIdx slot.pushAt }

/-- At the end of the program nothing may be left on the stack. -/
def settleStack : Selecting Unit := do
  let s ← get
  match s.spill with
  | none => return
  | some slot =>
    if slot.exchanged then
      reject .unbalancedStack
    else
      set { s with spill := none, code := s.code.eraseIdx slot.pushAt }

end Accumulator.Select
