/-!
# Signed 32-bit arithmetic

Literals, offsets and their products are signed 32-bit numbers. They are carried as `Int`, and
the two operations that can leave the range say so instead of wrapping.
-/

namespace Accumulator

/-- Arithmetic that left the signed 32-bit range. -/
inductive Overflow where
  | multiply
  | negate
  deriving DecidableEq

/-- The text reported for an overflow. -/
def Overflow.message : Overflow → String
  | .multiply => "attempt to multiply with overflow"
  | .negate => "attempt to negate with overflow"

/-- The least signed 32-bit number. -/
def minInt32 : Int := -2147483648

/-- The greatest signed 32-bit number. -/
def maxInt32 : Int := 2147483647

/-- The signed 32-bit range. -/
def InInt32 (n : Int) : Prop :=
  minInt32 ≤ n ∧ n ≤ maxInt32

instance (n : Int) : Decidable (InInt32 n) :=
  inferInstanceAs (Decidable (_ ∧ _))

/-- The product, if it is in range. -/
def checkedMul (a b : Int) : Except Overflow Int :=
  if InInt32 (a * b) then .ok (a * b) else .error .multiply

/-- The opposite number, if it is in range. -/
def checkedNeg (a : Int) : Except Overflow Int :=
  if InInt32 (-a) then .ok (-a) else .error .negate

end Accumulator
