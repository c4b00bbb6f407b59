import Accumulator.Peephole.Edits

/-!
# The peephole optimizer

The table of rules, in the order in which they are applied, and the passes over a stream. No rule
removes an instruction whose flags are used later, so a comparison always survives as a whole.
-/

namespace Accumulator.Peephole

/-- The registers that a load or move defines. -/
def definedRegs : Instr → List Reg
  | .mov dst _ | .mvi dst _ => [dst]
  | .lxi p _ =>
    match p.halves? with
    | some (high, low) => [high, low]
    | none => []
  | _ => []

/-- The symbol at an absolute address that an instruction uses. -/
def targetSymbol? (i : Instr) : Option String :=
  i.absoluteTarget?.bind fun (address, _) => address.symbol?

/-- A load may see what a store wrote, unless both name symbols and these differ. -/
def mayAlias (load store : Instr) : Bool :=
  match targetSymbol? store, targetSymbol? load with
  | some a, some b => a = b
  | _, _ => true

/-- The anchor stands next to the trigger: anything else ends the search. -/
def adjacent (_ _ : Instr) : Bool := true

/-- A load of what was just stored or loaded. -/
def reloadAfterStore : Rule where
  name := "reload-after-store"
  direction := .backward
  isTrigger
    | .lda _ => true
    | _ => false
  isAnchor
    | .sta a, .lda b | .lda a, .lda b => a = b
    | _, _ => false
  spoils i _ := i.writes .a || i.writesMemory

/-- A load of HL with what was just stored or loaded. -/
def pairReloadAfterStore : Rule where
  name := "pair-reload-after-store"
  direction := .backward
  isTrigger
    | .lhld _ => true
    | _ => false
  isAnchor
    | .shld a, .lhld b | .lhld a, .lhld b => a = b
    | _, _ => false
  spoils i _ := i.writes .h || i.writes .l || i.writesMemory

/-- An immediate that is already there. -/
def repeatedImmediate : Rule where
  name := "repeated-immediate"
  direction := .backward
  isTrigger
    | .mvi r _ => r ≠ .m
    | .lxi p _ => p.halves?.isSome
    | _ => false
  isAnchor candidate trigger := candidate = trigger
  spoils candidate trigger := (definedRegs trigger).any candidate.writes

/-- A work register that is overwritten before it is read. -/
def deadRegisterMove : Rule where
  name := "dead-register-move"
  direction := .forward
  isTrigger
    | .mov r _ | .mvi r _ => r.isWork
    | _ => false
  isAnchor candidate trigger := (definedRegs trigger).all candidate.overwrites
  spoils candidate trigger := (definedRegs trigger).any candidate.reads

/-- A move between registers that are already equal. -/
def copyBack : Rule where
  name := "copy-back"
  direction := .backward
  isTrigger
    | .mov dst src => dst ≠ .m && src ≠ .m && dst ≠ src
    | _ => false
  isAnchor
    | .mov dst₁ src₁, .mov dst₂ src₂ =>
      (dst₁ = src₂ && src₁ = dst₂) || (dst₁ = dst₂ && src₁ = src₂)
    | _, _ => false
  spoils
    | candidate, .mov dst src => candidate.writes dst || candidate.writes src
    | _, _ => true

/-- A value that passes through the accumulator. -/
def immediateThroughAccumulator : Rule where
  name := "immediate-through-accumulator"
  direction := .backward
  isTrigger
    | .mov dst .a => dst ≠ .a
    | _ => false
  isAnchor
    | .mvi .a _, _ | .mov .a _, _ => true
    | _, _ => false
  spoils := adjacent
  edit := some .fuse

/-- A fresh pair that is exchanged at once. -/
def exchangeFreshPair : Rule where
  name := "exchange-fresh-pair"
  direction := .backward
  isTrigger
    | .xchg => true
    | _ => false
  isAnchor
    | .lxi .d _, _ | .lxi .h _, _ => true
    | _, _ => false
  spoils := adjacent
  edit := some .direct

/-- Two exchanges. -/
def doubleExchange : Rule where
  name := "double-exchange"
  direction := .backward
  isTrigger
    | .xchg => true
    | _ => false
  isAnchor
    | .xchg, _ => true
    | _, _ => false
  spoils := adjacent
  edit := some .both

/-- A push that is popped at once. -/
def pushPop : Rule where
  name := "push-pop"
  direction := .backward
  isTrigger
    | .pop _ => true
    | _ => false
  isAnchor
    | .push p, .pop q => p = q
    | _, _ => false
  spoils := adjacent
  edit := some .both

/-- A step and the step back. -/
def incrementDecrement : Rule where
  name := "increment-decrement"
  direction := .backward
  isTrigger
    | .inx _ | .dcx _ => true
    | _ => false
  isAnchor
    | .dcx p, .inx q | .inx p, .dcx q => p = q
    | _, _ => false
  spoils := adjacent
  edit := some .both

/-- Operands that are exchanged through a work register. -/
def commuteOperands : Rule where
  name := "commute-operand"
  direction := .backward
  isTrigger
    | .alu op r => op.isCommutative && r.isWork
    | _ => false
  isAnchor
    | .mov .a s, _ => s ≠ .a
    | _, _ => false
  spoils := adjacent
  edit := some .commute

/-- A store that is overwritten before it is read. -/
def deadStore : Rule where
  name := "dead-store"
  direction := .forward
  isTrigger
    | .sta _ | .shld _ => true
    | _ => false
  isAnchor
    | .sta a, .sta b | .shld a, .sta b | .shld a, .shld b => a = b
    | _, _ => false
  spoils candidate trigger := candidate.readsMemory && mayAlias candidate trigger
  edit := some .store

/-- The rules in order. -/
def rules : List Rule :=
  [ reloadAfterStore, pairReloadAfterStore, repeatedImmediate, deadRegisterMove, copyBack,
    immediateThroughAccumulator, exchangeFreshPair, doubleExchange, pushPop, incrementDecrement,
    commuteOperands, deadStore ]

/-- The largest number of passes. -/
def maxPasses : Nat := 8

/-- Apply rules one after the other, counting the edits. -/
def applyRules (code : List Instr) : List Rule → Nat × List Instr
  | [] => (0, code)
  | rule :: rest =>
    let (fired, after) := rule.apply code
    let (more, result) := applyRules after rest
    (fired + more, result)

/-- At most a number of passes, until one changes nothing. -/
def runPasses : (passes : Nat) → List Instr → Nat × List Instr
  | 0, code => (0, code)
  | passes + 1, code =>
    let (fired, after) := applyRules code rules
    if fired = 0 then
      (0, after)
    else
      let (more, result) := runPasses passes after
      (fired + more, result)

/-- Optimize a stream. The answer counts the edits. -/
def optimize (code : List Instr) : Nat × List Instr :=
  runPasses maxPasses code

end Accumulator.Peephole
