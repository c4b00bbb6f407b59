import Accumulator.Instr.Basic

/-!
# Seven registers

One value per register. The selector keeps what it knows of each register this way, and the
machine keeps the bytes. `m` is not a register: reading it gives what `a` holds, and writing it
changes nothing, so who needs `m` treats it before.
-/

namespace Accumulator

/-- One value per register. -/
structure Registers (α : Type) where
  a : α
  b : α
  c : α
  d : α
  e : α
  h : α
  l : α
  deriving DecidableEq

namespace Registers

variable {α : Type}

/-- The same value in every register. -/
def replicate (x : α) : Registers α := ⟨x, x, x, x, x, x, x⟩

/-- The value of a register. -/
def get (rs : Registers α) : Reg → α
  | .a | .m => rs.a
  | .b => rs.b
  | .c => rs.c
  | .d => rs.d
  | .e => rs.e
  | .h => rs.h
  | .l => rs.l

/-- Change one register. -/
def set (rs : Registers α) (r : Reg) (x : α) : Registers α :=
  match r with
  | .a => { rs with a := x }
  | .b => { rs with b := x }
  | .c => { rs with c := x }
  | .d => { rs with d := x }
  | .e => { rs with e := x }
  | .h => { rs with h := x }
  | .l => { rs with l := x }
  | .m => rs

theorem get_set_self (rs : Registers α) {r : Reg} (x : α) (h : r ≠ .m) :
    (rs.set r x).get r = x := by
  cases r <;> first | rfl | exact absurd rfl h

theorem get_set_of_ne (rs : Registers α) {r q : Reg} (x : α) (hr : r ≠ .m) (hq : q ≠ .m)
    (h : q ≠ r) : (rs.set r x).get q = rs.get q := by
  cases r <;> cases q <;> first | rfl | contradiction

end Registers

end Accumulator
