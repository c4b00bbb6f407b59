import Accumulator.RegisterFile

/-!
# What triples need

How a triple uses its operands, and from that, which values the rest of a program still needs.
-/

namespace Accumulator.Select

/-- How a triple uses an operand. -/
inductive Role where
  /-- It is read. -/
  | value
  /-- Its address is taken. -/
  | address
  /-- It is assigned to. -/
  | target
  deriving DecidableEq

/-- The operands of a triple with their roles. -/
def uses (t : Triple) : List (Operand × Role) :=
  let right := t.rhs.toList.map fun o => (o, Role.value)
  match t.op with
  | .assign => (t.lhs, if t.throughPointer then .value else .target) :: right
  | .address => [(t.lhs, .address)]
  | .index => (t.lhs, .address) :: right
  | _ => t.operands.map fun o => (o, .value)

/-- Results that stay in memory and are read through their address: bytes behind a pointer and
elements of byte arrays. -/
def isMemoryOperand (triples : List Triple) : Operand → Bool
  | .temp id =>
    match Triple.find? triples id with
    | some t => t.op = .deref || (t.op = .index && t.width = .byte)
    | none => false
  | _ => false

/-- The values a triple reads. A result in memory needs its address as well. -/
def operandValues (triples : List Triple) (t : Triple) : List Value :=
  (uses t).flatMap fun (o, role) =>
    match role with
    | .value => if isMemoryOperand triples o then [.of o, .addr o] else [.of o]
    | .address | .target => [.addr o]

/-- A triple needs a value. -/
def needs (triples : List Triple) (v : Value) (t : Triple) : Bool :=
  (uses t).any fun (o, role) =>
    match v with
    | .of u => u = o && role = .value
    | .addr u => u = o && (role ≠ .value || isMemoryOperand triples o)

/-- How often a triple reads an operand. -/
def readCount (o : Operand) (t : Triple) : Nat :=
  (uses t).countP fun (u, role) => u = o && role = .value

/-- Values that memory or an immediate always provides. -/
def reloadable : Value → Bool
  | .of (.const _) | .of (.var _) | .addr (.var _) => true
  | _ => false

end Accumulator.Select
