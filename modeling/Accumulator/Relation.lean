import Accumulator.Instr.Basic

/-!
# Relations

Comparisons leave their answer in the flags. After a compare the carry separates less from
greater-or-equal; the other two orders need the operands exchanged, or a constant raised by one.
-/

namespace Accumulator

/-- The relation a comparison asks about. -/
inductive Relation where
  | eq | ne | lt | ge | gt | le
  deriving DecidableEq

namespace Relation

/-- All relations. -/
def all : List Relation := [eq, ne, lt, ge, gt, le]

/-- The condition that answers the relation after a compare. `swapped` means that the accumulator
holds the right operand. -/
def condition : Relation → (swapped : Bool) → Cond
  | eq, _ => .z
  | ne, _ => .nz
  | lt, false => .c
  | lt, true => .nc
  | ge, false => .nc
  | ge, true => .c
  | gt, false => .nc
  | gt, true => .c
  | le, false => .c
  | le, true => .nc

/-- `condition` answers the relation in this order without adjusting what is compared. -/
def isExact : Relation → (swapped : Bool) → Bool
  | eq, _ | ne, _ => true
  | lt, swapped | ge, swapped => !swapped
  | gt, swapped | le, swapped => swapped

end Relation

end Accumulator
