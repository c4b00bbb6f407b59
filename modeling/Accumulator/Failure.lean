import Accumulator.Overflow
import Accumulator.Triple.Text

/-!
# Failures

Why a program is not compiled. A `Rejection` names the rule that was broken and the symbol or
triple that broke it; the last five say that the program outgrew the single save slot rather than
that it is wrong. Overflow of an element offset is a failure of its own.
-/

namespace Accumulator

/-- The construct whose operands were missing or left over. -/
inductive Construct where
  | operator (op : Op)
  | assignment
  | index
  | dimension
  | addressOf
  | dereference
  | programEnd
  deriving DecidableEq

/-- How a construct is called in a message. -/
def Construct.text : Construct → String
  | operator op => op.name
  | assignment => "assignment"
  | index => "index"
  | dimension => "array dimension"
  | addressOf => "address-of"
  | dereference => "dereference"
  | programEnd => "program end"

/-- Why no instructions can be selected for a triple. -/
inductive Illegality where
  | missingOperand
  | missingShiftCount
  | missingIndex
  | missingValue
  | onBytes (op : Op)
  | onWords (op : Op)
  | notComparison
  | indexOf (base : Operand)
  | notArray (name : String)
  | addressOfConst (value : Int)
  | addressOfTemp (operand : Operand)
  | bytePointer (name : String)
  | wordThroughPointer
  | constTarget (value : Int)
  | computedTarget
  deriving DecidableEq

/-- The reason in words. -/
def Illegality.message : Illegality → String
  | missingOperand => "missing right operand"
  | missingShiftCount => "missing shift count"
  | missingIndex => "missing index"
  | missingValue => "assignment without a value"
  | onBytes op => s!"{op.name} on bytes"
  | onWords op => s!"{op.name} on words"
  | notComparison => "not a comparison"
  | indexOf base => s!"index of {base.text}"
  | notArray name => s!"{name} is not an array"
  | addressOfConst value => s!"address of constant {value}"
  | addressOfTemp operand => s!"address of temporary {operand.text}"
  | bytePointer name => s!"byte variable {name} used as a pointer"
  | wordThroughPointer => "word value stored through a pointer"
  | constTarget value => s!"assignment to constant {value}"
  | computedTarget => "assignment to a computed value"

/-- Why a program is rejected. -/
inductive Rejection where
  | duplicateVariable (name : String)
  | undeclaredVariable (name : String)
  | notIndexable (operand : String)
  | expectedDimensionLiteral (name : String)
  | unbalancedExpression (construct : Construct)
  | illegal (triple : Nat) (reason : Illegality)
  | noFreeWorkRegister (triple : Nat)
  | tooComplex (triple : Nat)
  | cannotSaveAccumulator (triple : Nat)
  | saveSlotOccupied (triple : Nat)
  | unbalancedStack
  deriving DecidableEq

namespace Rejection

/-- The message for a rejection. -/
def message : Rejection → String
  | duplicateVariable name => s!"Variable '{name}' is declared twice"
  | undeclaredVariable name => s!"Variable '{name}' is not declared"
  | notIndexable operand => s!"'{operand}' is not an array and cannot be indexed"
  | expectedDimensionLiteral name => s!"Array length of '{name}' must be a literal"
  | unbalancedExpression construct => s!"Unbalanced expression in {construct.text}"
  | illegal triple reason => s!"Illegal assignment at t{triple}: {reason.message}"
  | noFreeWorkRegister triple => s!"No free working register for t{triple}"
  | tooComplex triple => s!"Expression too complex at t{triple}"
  | cannotSaveAccumulator triple => s!"Cannot save accumulator at t{triple}"
  | saveSlotOccupied triple => s!"Save slot already occupied at t{triple}"
  | unbalancedStack => "Unbalanced stack at end of program"

/-- The program is too large for the save slot rather than wrong. -/
def isInternal : Rejection → Bool
  | noFreeWorkRegister _ | tooComplex _ | cannotSaveAccumulator _ | saveSlotOccupied _
  | unbalancedStack => true
  | _ => false

end Rejection

/-- Why a compilation gives no result. -/
inductive Failure where
  | rejected (reason : Rejection)
  | overflow (kind : Overflow)
  deriving DecidableEq

end Accumulator
