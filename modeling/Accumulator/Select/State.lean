import Accumulator.Failure
import Accumulator.Select.Demand

/-!
# Selection state

Instructions are selected triple by triple. The state holds the code so far, what the registers
hold, and the one value that may be saved on the stack. Everything here asks about a state;
nothing changes it.
-/

namespace Accumulator.Select

/-- The value saved on the stack. -/
structure Spill where
  value : Value
  /-- Position of the push in the code. -/
  pushAt : Nat
  /-- The slot was exchanged with HL, so the push can no longer be taken back. -/
  exchanged : Bool := false
  deriving DecidableEq

/-- State of the selection. -/
structure State where
  triples : List Triple := []
  symbols : SymbolTable := .empty
  code : List Instr := []
  regs : RegisterFile := {}
  spill : Option Spill := none
  /-- Position of the triple being selected. -/
  pos : Nat := 0
  /-- Values the current triple reads, which are not evicted. -/
  pinned : List Value := []

namespace State

/-- Number of the current triple. -/
def currentId (s : State) : Nat :=
  match s.triples[s.pos]? with
  | some t => t.id
  | none => 0

/-- Width of a value; an address is a word. -/
def widthOf (s : State) : Value → Width
  | .of o => o.width s.triples s.symbols
  | .addr _ => .word

/-- The value is one byte wide. -/
def isByte (s : State) (v : Value) : Bool :=
  s.widthOf v = .byte

/-- The operand is a result that stays in memory. -/
def isMemoryOperand (s : State) (o : Operand) : Bool :=
  Select.isMemoryOperand s.triples o

/-- Position of the first triple, at or after a position, that needs a value. -/
def nextUse? (s : State) (v : Value) (start : Nat) : Option Nat :=
  ((s.triples.drop start).findIdx? (needs s.triples v)).map (start + ·)

/-- The current triple or a later one needs the value. -/
def isLive (s : State) (v : Value) : Bool :=
  (s.nextUse? v s.pos).isSome

/-- A later triple needs the value. -/
def isLiveAfter (s : State) (v : Value) : Bool :=
  (s.nextUse? v (s.pos + 1)).isSome

/-- The save slot holds a value. -/
def isSaved (s : State) (v : Value) : Bool :=
  s.spill.any (·.value = v)

/-- The value is in a register, a pair or the save slot, even if the registers in `lost` are
overwritten. -/
def isHeld (s : State) (v : Value) (lost : List Reg) : Bool :=
  let inRegister := Reg.all.any fun r => !lost.contains r && s.regs.holds r v
  let inPair := RegisterFile.searchOrder.any fun p =>
    (p.halves?.any fun (high, low) => !lost.contains high && !lost.contains low) &&
      s.regs.pairMatch? p v = some .full
  inRegister || inPair || s.isSaved v

/-- The value can still be had if the registers in `lost` are overwritten. -/
def hasCopy (s : State) (v : Value) (lost : List Reg) : Bool :=
  let throughAddress := match v with
    | .of o => s.isMemoryOperand o && s.isHeld (.addr o) lost
    | .addr _ => false
  reloadable v || s.isHeld v lost || throughAddress

/-- The value must not be lost when the registers in `lost` are overwritten. -/
def mustKeep (s : State) (v : Value) (lost : List Reg) (afterCurrent : Bool) : Bool :=
  (if afterCurrent then s.isLiveAfter v else s.isLive v) && !s.hasCopy v lost

/-- The value can be read as `m`. -/
def isAtM (s : State) : Value → Bool
  | .of o =>
    (o.var?.isSome || s.isMemoryOperand o) && s.regs.findPair? (.addr o) = some .h
  | .addr _ => false

/-- The value reaches a register only by way of the accumulator. -/
def needsAccumulator (s : State) (v : Value) : Bool :=
  (s.regs.findByte? v).isNone && !s.isAtM v && !v.isConst

/-- A literal that no register holds and that is read at most once from here on. -/
def isReadOnce (s : State) (value : Int) : Bool :=
  (s.regs.findByte? (.const value)).isNone &&
    (s.triples.drop s.pos).foldr (fun t n => readCount (.const value) t + n) 0 ≤ 1

/-- The current triple reads the value. -/
def isPinned (s : State) (v : Value) : Bool :=
  s.pinned.contains v

/-- Overwriting the pair loses nothing that is needed. -/
def isFree (s : State) (p : Pair) : Bool :=
  match p.halves? with
  | none => false
  | some (high, low) =>
    [high, low].all fun r =>
      match (s.regs.get r).value? with
      | none => true
      | some v => !s.isPinned v && !s.mustKeep v [high, low] false

/-- The pair holds the value, in full or as an extended byte. -/
def isInPair (s : State) (v : Value) (p : Pair) : Bool :=
  match s.regs.pairMatch? p v with
  | some .full => true
  | some .extended => s.isByte v
  | none => false

/-- Pair for the second operand of a word operation: DE, unless only BC is free. -/
def secondPair (s : State) : Pair :=
  if !s.isFree .d && s.isFree .b then .b else .d

/-! ## Choice of a work register -/

/-- The registers that lose their record when a register is overwritten. -/
def span (s : State) (r : Reg) : List Reg :=
  match s.regs.get r with
  | .half _ _ =>
    match r.pair?.bind Pair.halves? with
    | some (high, low) => [high, low]
    | none => []
  | _ => [r]

/-- Cost of evicting a live value that can be had elsewhere: the later it is needed, the cheaper.
A variable costs twice as much, and what `m` provides costs half. -/
def liveCost (s : State) (v : Value) : Nat :=
  let distance := match s.nextUse? v s.pos with
    | some n => n - s.pos + 1
    | none => 1
  let weight := if v.isVar then 2 else 1
  let cost := 2 + weight * 64 / distance
  if s.isAtM v then max (cost / 2) 2 else cost

/-- Cost of using a register: nothing when it is empty, least when its value is not needed. A
register that the current triple reads, or with the only copy of a needed value, is not used. -/
def evictionCost? (s : State) (r : Reg) : Option Nat :=
  match (s.regs.get r).value? with
  | none => some 0
  | some v =>
    if s.isPinned v then none
    else if !s.isLive v then some 1
    else if s.hasCopy v (s.span r) then some (s.liveCost v)
    else none

/-- The cheaper of the best register so far and another; the first of equals. -/
def cheaper (s : State) (best : Option (Nat × Reg)) (r : Reg) : Option (Nat × Reg) :=
  match s.evictionCost? r, best with
  | none, _ => best
  | some cost, none => some (cost, r)
  | some cost, some (least, _) => if cost < least then some (cost, r) else best

/-- The work register that is cheapest to use. -/
def workRegister? (s : State) (exclude : List Reg) : Option Reg :=
  (([Reg.b, .c, .d, .e].filter (!exclude.contains ·)).foldl s.cheaper none).map (·.2)

end State

end Accumulator.Select
