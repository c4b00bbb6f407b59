import Accumulator.Event
import Accumulator.Failure
import Accumulator.Triple.Fold
import Accumulator.Triple.Optimize

/-!
# Drafts

A draft is a program under construction. Operands wait on a stack until an event uses them; an
operator on literals is folded at once and any other appends a triple. A rejected event leaves the
draft as it was when the reason appeared, so operands that were already taken stay taken.
-/

namespace Accumulator

/-- A program under construction. -/
structure Draft where
  triples : List Triple := []
  symbols : SymbolTable := .empty
  /-- Operands not used yet, the last one first. -/
  stack : List Operand := []
  nextId : Nat := 0

/-- A step on a draft, which may be rejected midway. -/
abbrev Drafting := EStateM Rejection Draft

namespace Draft

/-- Leave an operand for a later event. -/
def pushOperand (o : Operand) : Drafting Unit :=
  modify fun d => { d with stack := o :: d.stack }

/-- Take the last operand. -/
def popOperand (construct : Construct) : Drafting Operand := do
  match (← get).stack with
  | [] => throw (.unbalancedExpression construct)
  | o :: rest =>
    modify fun d => { d with stack := rest }
    return o

/-- No operand is left. -/
def expectEmpty (construct : Construct) : Drafting Unit := do
  match (← get).stack with
  | [] => return
  | _ :: _ => throw (.unbalancedExpression construct)

/-- Append a triple, at the next number and at the width its operands give. -/
def append (lhs : Operand) (op : Op) (rhs : Option Operand) (throughPointer : Bool := false) :
    Drafting Operand := do
  let d ← get
  let t : Triple := { id := d.nextId, lhs, op, rhs, throughPointer }
  let t := { t with width := t.derivedWidth d.triples d.symbols }
  set { d with triples := d.triples ++ [t], nextId := d.nextId + 1 }
  return .temp t.id

/-- Change the first triple with a number if it is an array element. -/
def markElement (triples : List Triple) (id : Nat) (mark : Triple → Triple) : List Triple :=
  match triples with
  | [] => []
  | t :: rest =>
    if t.id = id then
      (if t.op = .index then mark t else t) :: rest
    else
      t :: markElement rest id mark

/-- Mark the element an operand refers to. -/
def markOperand (o : Operand) (mark : Triple → Triple) : Drafting Unit :=
  match o with
  | .temp id => modify fun d => { d with triples := markElement d.triples id mark }
  | _ => pure ()

/-- Declare a variable. -/
def declare (name : String) (width : Width) : Drafting Unit := do
  match (← get).symbols.declare? { name, width } with
  | some symbols => modify fun d => { d with symbols }
  | none => throw (.duplicateVariable name)

/-- Refer to a declared variable. -/
def reference (name : String) : Drafting Unit := do
  if (← get).symbols.contains name then
    pushOperand (.var name)
  else
    throw (.undeclaredVariable name)

/-- Give a variable an initial value. -/
def initial (name : String) (value : InitialValue) : Drafting Unit := do
  if (← get).symbols.contains name then
    modify fun d => { d with symbols := d.symbols.withInitial name value }
  else
    throw (.undeclaredVariable name)

/-- The value of an operator whose operands are all literals. -/
def folded? (op : Op) (lhs : Operand) (rhs : Option Operand) : Option Int :=
  match lhs, rhs with
  | .const a, none => op.fold? a none
  | .const a, some (.const b) => op.fold? a (some b)
  | _, _ => none

/-- Apply an operator to the last operands. -/
def operator (op : Op) : Drafting Unit := do
  let rhs ← if op.isUnary then pure none else some <$> popOperand (.operator op)
  let lhs ← popOperand (.operator op)
  match folded? op lhs rhs with
  | some value => pushOperand (.const value)
  | none => pushOperand (← append lhs op rhs)

/-- Assign the last operand to the one before it. A target element is used by address only. -/
def assign (throughPointer : Bool) : Drafting Unit := do
  let rhs ← popOperand .assignment
  let lhs ← popOperand .assignment
  markOperand lhs fun t => { t with addressOnly := true }
  let _ ← append lhs .assign (some rhs) throughPointer
  expectEmpty .assignment

/-- Index an array. Element zero is the array itself. -/
def index : Drafting Unit := do
  let position ← popOperand .index
  let base ← popOperand .index
  match base with
  | .var name =>
    let isArray := match (← get).symbols.get? name with
      | some s => s.isArray
      | none => false
    if !isArray then
      throw (.notIndexable name)
    else if position = .const 0 then
      pushOperand base
    else
      pushOperand (← append base .index (some position))
  | other => throw (.notIndexable other.text)

/-- Make a variable an array of a positive literal length. -/
def setDimension (name : String) : Drafting Unit := do
  match ← popOperand .dimension with
  | .const value =>
    if value ≤ 0 then
      throw (.expectedDimensionLiteral name)
    else if (← get).symbols.contains name then
      modify fun d => { d with symbols := d.symbols.setDimension name (some value.toNat) }
      expectEmpty .dimension
    else
      throw (.undeclaredVariable name)
  | _ => throw (.expectedDimensionLiteral name)

/-- The pointer that an operand dereferences. -/
def pointer? (triples : List Triple) (o : Operand) : Option Operand :=
  match o with
  | .temp id =>
    match Triple.find? triples id with
    | some t => if t.op = .deref then some t.lhs else none
    | none => none
  | _ => none

/-- Take an address. The address of what a pointer points at is the pointer. -/
def addressOf : Drafting Unit := do
  let operand ← popOperand .addressOf
  match pointer? (← get).triples operand with
  | some pointer => pushOperand pointer
  | none =>
    markOperand operand fun t => { t with addressOnly := true, noSave := true }
    pushOperand (← append operand .address none)

/-- Follow a pointer. -/
def dereference : Drafting Unit := do
  let pointer ← popOperand .dereference
  pushOperand (← append pointer .deref none)

/-- Process one event. -/
def accept : Event → Drafting Unit
  | .declare name width => declare name width
  | .reference name => reference name
  | .literal value => pushOperand (.const value)
  | .initial name value => initial name value
  | .operator op => operator op.toOp
  | .assign throughPointer => assign throughPointer
  | .index => index
  | .setDimension name => setDimension name
  | .addressOf => addressOf
  | .dereference => dereference

/-- Process events in order, up to the first that is rejected. -/
def acceptAll : List Event → Drafting Unit
  | [] => pure ()
  | event :: rest => do
    accept event
    acceptAll rest

/-- Process one event: the reason if it was rejected, and the draft afterwards. -/
def next (d : Draft) (event : Event) : Option Rejection × Draft :=
  match accept event d with
  | .ok _ after => (none, after)
  | .error reason after => (some reason, after)

/-- The finished program before optimization. No operand may be left. -/
def program (d : Draft) : Except Rejection Program :=
  match d.stack with
  | [] => .ok { triples := d.triples, symbols := d.symbols }
  | _ :: _ => .error (.unbalancedExpression .programEnd)

/-- The finished and optimized program. -/
def finish (d : Draft) : Except Rejection Program := do
  return (← d.program).optimize

/-- The draft that a list of events describes. -/
def ofEvents (events : List Event) : Except Rejection Draft :=
  match acceptAll events {} with
  | .ok _ d => .ok d
  | .error reason _ => .error reason

end Draft

/-- Build and optimize the program that a list of events describes. -/
def Program.ofEvents (events : List Event) : Except Rejection Program := do
  (← Draft.ofEvents events).finish

end Accumulator
