import Accumulator.Relation
import Accumulator.Symbol

/-!
# Triples

A program between events and instructions is a list of triples: an operator with one or two
operands, named by a number. An operand is a literal, a variable or the result of another triple.
Numbers are never used again, so a reference stays valid while other triples are removed.
-/

namespace Accumulator

/-- Operand of a triple. -/
inductive Operand where
  | const (value : Int)
  | var (name : String)
  /-- The result of the triple with a number. -/
  | temp (id : Nat)
  deriving DecidableEq

namespace Operand

/-- The operand is a literal. -/
def isConst : Operand → Bool
  | const _ => true
  | _ => false

/-- The value of a literal. -/
def const? : Operand → Option Int
  | const value => some value
  | _ => none

/-- The name of a variable. -/
def var? : Operand → Option String
  | var name => some name
  | _ => none

/-- The number of the triple referred to. -/
def temp? : Operand → Option Nat
  | temp id => some id
  | _ => none

end Operand

/-- Operators of triples. -/
inductive Op where
  | add | sub | shl | shr
  | eq | ne | gt | lt | ge | le
  | xor | and | or | inv
  /-- Increment; a right operand is a repeat count. -/
  | inc
  /-- Decrement; a right operand is a repeat count. -/
  | dec
  | assign
  /-- Array element: the array on the left, the index on the right. -/
  | index
  /-- Address of a variable or an element. -/
  | address
  /-- The byte a pointer points at. -/
  | deref
  deriving DecidableEq

namespace Op

/-- The relation a comparison asks about. -/
def relation? : Op → Option Relation
  | eq => some .eq
  | ne => some .ne
  | gt => some .gt
  | lt => some .lt
  | ge => some .ge
  | le => some .le
  | _ => none

/-- The operands may be exchanged. -/
def isCommutative : Op → Bool
  | add | xor | and | or | eq | ne => true
  | _ => false

/-- The result is 0 or 1. -/
def isComparison (op : Op) : Bool :=
  op.relation?.isSome

/-- The operator takes one operand. -/
def isUnary : Op → Bool
  | inv | inc | dec | address | deref => true
  | _ => false

/-- The selector may load the operands in either order. -/
def isSwappable (op : Op) : Bool :=
  op.isCommutative || op.isComparison || op == sub

end Op

/-- One triple. -/
structure Triple where
  id : Nat
  lhs : Operand
  op : Op
  rhs : Option Operand := none
  /-- The width it is computed at. -/
  width : Width := .byte
  /-- Only the address of this element is used. -/
  addressOnly : Bool := false
  /-- The address of this element is not copied to keep it. -/
  noSave : Bool := false
  /-- An assignment to what the left operand points at. -/
  throughPointer : Bool := false
  deriving DecidableEq

namespace Triple

/-- Width of the result: comparisons give bytes and addresses are words. -/
def resultWidth (t : Triple) : Width :=
  if t.op.isComparison then .byte
  else if t.op = .address then .word
  else t.width

/-- How often an increment or decrement is repeated. A count is an unsigned 32-bit number. -/
def repetitions (t : Triple) : Nat :=
  match t.op, t.rhs with
  | .inc, some (.const n) | .dec, some (.const n) => (n % 4294967296).toNat
  | _, _ => 1

/-- Operands that are read, without the repeat count of an increment or decrement. -/
def operands (t : Triple) : List Operand :=
  match t.op with
  | .inc | .dec => [t.lhs]
  | _ => t.lhs :: t.rhs.toList

/-- One of the operands is the result of a triple. -/
def refersTo (t : Triple) (id : Nat) : Bool :=
  t.lhs = .temp id || t.rhs = some (.temp id)

/-- Replace every reference to a triple. -/
def rename (t : Triple) (id : Nat) (replacement : Operand) : Triple :=
  let subst (o : Operand) : Operand := if o = .temp id then replacement else o
  { t with lhs := subst t.lhs, rhs := t.rhs.map subst }

/-- Operator and operands agree. -/
def sameExpression (t u : Triple) : Bool :=
  t.op = u.op && t.lhs = u.lhs && t.rhs = u.rhs

/-- The first triple with a number. -/
def find? (triples : List Triple) (id : Nat) : Option Triple :=
  List.find? (·.id = id) triples

end Triple

/-- Width of an operand. A reference to a missing triple counts as a byte. -/
def Operand.width (o : Operand) (triples : List Triple) (symbols : SymbolTable) : Width :=
  match o with
  | const value => Width.ofConstant value
  | var name => symbols.widthOf name
  | temp id =>
    match Triple.find? triples id with
    | some t => t.resultWidth
    | none => .byte

/-- The width a triple is computed at, given the triples that come before it. -/
def Triple.derivedWidth (t : Triple) (earlier : List Triple) (symbols : SymbolTable) : Width :=
  match t.op with
  | .address => .word
  | .deref => .byte
  | .index =>
    match t.lhs with
    | .var name => symbols.widthOf name
    | _ => .byte
  | .inc | .dec => t.lhs.width earlier symbols
  | _ =>
    if t.op = .assign ∧ t.throughPointer then
      .byte
    else
      match t.rhs with
      | some rhs => (t.lhs.width earlier symbols).max (rhs.width earlier symbols)
      | none => t.lhs.width earlier symbols

/-- Triples together with the symbols they use. -/
structure Program where
  triples : List Triple := []
  symbols : SymbolTable := .empty

end Accumulator
