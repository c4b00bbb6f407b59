import Accumulator.Triple.Basic

/-!
# Folding literals

An operator on literals is carried out at once, with the result the target would compute. The
width is that of the wider literal. Literals are cut off to that width, the operator is carried out
on them as unsigned numbers of 32 bits, and its result is cut off again.
-/

namespace Accumulator

/-- One for true and zero for false. -/
def truth {n : Nat} (b : Bool) : BitVec n :=
  if b then 1#n else 0#n

namespace Op

/-- A binary operator on unsigned numbers of one width. -/
def onBits? {n : Nat} (op : Op) (a b : BitVec n) : Option (BitVec n) :=
  match op with
  | add => some (a + b)
  | sub => some (a - b)
  | shl => some (a <<< b.toNat)
  | shr => some (a >>> b.toNat)
  | xor => some (a ^^^ b)
  | and => some (a &&& b)
  | or => some (a ||| b)
  | eq => some (truth (a == b))
  | ne => some (truth (a != b))
  | gt => some (truth (b.ult a))
  | lt => some (truth (a.ult b))
  | ge => some (truth (b.ule a))
  | le => some (truth (a.ule b))
  | _ => none

/-- A shift to the left of 32 bits. There is none by 32 places or more. -/
def checkedShl? (a b : BitVec 32) : Option (BitVec 32) :=
  if b.toNat < 32 then some (a <<< b.toNat) else none

/-- A shift to the right of 32 bits. There is none by 32 places or more. -/
def checkedShr? (a b : BitVec 32) : Option (BitVec 32) :=
  if b.toNat < 32 then some (a >>> b.toNat) else none

/-- A binary operator on unsigned numbers of 32 bits. A shift that there is not leaves zero. -/
def onWide? (op : Op) (a b : BitVec 32) : Option (BitVec 32) :=
  match op with
  | shl => some ((checkedShl? a b).getD 0)
  | shr => some ((checkedShr? a b).getD 0)
  | _ => op.onBits? a b

/-- The width at which literals are folded. -/
def foldWidth (lhs : Int) : Option Int → Width
  | some rhs => (Width.ofConstant lhs).max (Width.ofConstant rhs)
  | none => Width.ofConstant lhs

/-- The value of an operator on literals, if it can be folded. The complement leaves a right operand
out, but for the width. -/
def fold? (op : Op) (lhs : Int) (rhs : Option Int) : Option Int :=
  let mask := BitVec.ofNat 32 (foldWidth lhs rhs).mask
  let a := BitVec.ofInt 32 lhs &&& mask
  let result :=
    if op = inv then some (~~~a)
    else rhs.bind fun r => op.onWide? a (BitVec.ofInt 32 r &&& mask)
  result.map fun v => (v &&& mask).toInt

end Op

end Accumulator
