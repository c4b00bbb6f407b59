import Accumulator.Triple.Text

/-!
# Construction events

A front end describes a program by events: declarations, and expressions in postfix order.
-/

namespace Accumulator

/-- Operators of expressions. -/
inductive ExprOp where
  | add | sub | shl | shr
  | eq | ne | gt | lt | ge | le
  | xor | and | or | inv
  deriving DecidableEq

namespace ExprOp

/-- All expression operators. -/
def all : List ExprOp :=
  [add, sub, shl, shr, eq, ne, gt, lt, ge, le, xor, and, or, inv]

/-- The operator of the triple it becomes. -/
def toOp : ExprOp → Op
  | add => .add
  | sub => .sub
  | shl => .shl
  | shr => .shr
  | eq => .eq
  | ne => .ne
  | gt => .gt
  | lt => .lt
  | ge => .ge
  | le => .le
  | xor => .xor
  | and => .and
  | or => .or
  | inv => .inv

/-- The expression operator with a name. -/
def ofName? (name : String) : Option ExprOp :=
  all.find? (·.toOp.name = name)

end ExprOp

/-- One step of the construction of a program. -/
inductive Event where
  | declare (name : String) (width : Width)
  | reference (name : String)
  | literal (value : Int)
  | initial (name : String) (value : InitialValue)
  | operator (op : ExprOp)
  | assign (throughPointer : Bool)
  | index
  | setDimension (name : String)
  | addressOf
  | dereference
  deriving DecidableEq

end Accumulator
