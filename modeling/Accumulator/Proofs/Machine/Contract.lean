import Mathlib
import Accumulator.Proofs.Machine.Routine

/-!
# Contracts of the library routines

What a caller may rely on: the answer as a number, and all that a call leaves alone. A call may
destroy the registers in `Routine.clobbers` and the two bytes below the stack pointer, where the
return address was.
-/

namespace Accumulator.Machine

variable {m : Machine} {routine : Routine}

/-- What a routine computes from its arguments, as numbers: the accumulator or HL times or divided
by a power of two, with the count gone, or a difference with the borrow in the carry. -/
def Answers (m m' : Machine) : Routine → Prop
  | .shiftLeft =>
    m'.registers.a.toNat = m.registers.a.toNat * 2 ^ m.registers.c.toNat % 256 ∧ m'.registers.c = 0
  | .shiftRight =>
    m'.registers.a.toNat = m.registers.a.toNat / 2 ^ m.registers.c.toNat ∧ m'.registers.c = 0
  | .shiftLeftWord =>
    m'.hl.toNat = m.hl.toNat * 2 ^ m.registers.c.toNat % 65536 ∧ m'.registers.c = 0
  | .shiftRightWord =>
    m'.hl.toNat = m.hl.toNat / 2 ^ m.registers.c.toNat ∧ m'.registers.c = 0
  | .subtractWord =>
    (m'.hl.toNat : Int) = ((m.hl.toNat : Int) - (m.pair .d).toNat) % 65536 ∧
      (m'.carry = true ↔ m.hl.toNat < (m.pair .d).toNat)

/-- A call gives its answer, and changes only the registers it may destroy and the two bytes below
the stack pointer. -/
structure Fulfils (routine : Routine) (m m' : Machine) : Prop where
  answers : Answers m m' routine
  sp : m'.sp = m.sp
  addresses : m'.addresses = m.addresses
  registers : ∀ r, r ≠ .m → r ∉ routine.clobbers → m'.get r = m.get r
  memory : ∀ a, a ≠ m.sp - 1 → a ≠ m.sp - 2 → m'.memory.read a = m.memory.read a

/-- The mark of a call lies in the two bytes below the stack pointer. -/
theorem read_marked {a : Word} (hhigh : a ≠ m.sp - 1) (hlow : a ≠ m.sp - 2) :
    (m.memory.writeWord (m.sp - 2) returnMark).read a = m.memory.read a := by
  refine Memory.read_writeWord_of_ne hlow fun h => hhigh ?_
  rw [h]
  bv_omega

/-- Copying some registers leaves the others as they are. -/
theorem get_foldl_set {rs kept : Registers Byte} {r : Reg} (hr : r ≠ .m) {regs : List Reg}
    (h : r ∉ regs) :
    (regs.foldl (fun kept q => kept.set q (rs.get q)) kept).get r = kept.get r := by
  induction regs generalizing kept with
  | nil => rfl
  | cons q rest ih =>
    rw [List.mem_cons, not_or] at h
    rw [List.foldl_cons, ih h.2]
    by_cases hq : q = .m
    · rw [hq]
      rfl
    · exact Registers.get_set_of_ne kept _ hq hr h.1

/-- A call that leaves its mark and other registers behind: they differ from what they were at most
in those that it may destroy. -/
theorem fulfils_of_registers {rs : Registers Byte} {zero carry : Bool} {m' : Machine}
    (hm' : m' = { m with
      registers := rs, zero, carry, memory := m.memory.writeWord (m.sp - 2) returnMark })
    (hregisters : routine.clobbers.foldl (fun kept r => kept.set r (rs.get r)) m.registers = rs)
    (hanswers : Answers m m' routine) : Fulfils routine m m' := by
  subst hm'
  refine ⟨hanswers, rfl, rfl, fun r hr hkept => ?_, fun a hhigh hlow => read_marked hhigh hlow⟩
  have hget : rs.get r = m.registers.get r := by
    rw [← hregisters]
    exact get_foldl_set hr hkept
  cases r <;> first | exact hget | exact absurd rfl hr

/-- Every call returns and fulfils its contract. What the routine computes is known as an operation
on words of bits, and the contract says it in numbers. -/
theorem step_call_fulfils (m : Machine) (routine : Routine) :
    ∃ m', m.step (.call routine) = .ok m' ∧ Fulfils routine m m' := by
  cases routine with
  | shiftLeft =>
    obtain ⟨carry, hcall⟩ := call_shiftLeft m
    refine ⟨_, hcall, fulfils_of_registers rfl rfl ⟨?_, rfl⟩⟩
    rw [BitVec.toNat_shiftLeft, Nat.shiftLeft_eq]
  | shiftRight =>
    obtain ⟨carry, hcall⟩ := call_shiftRight m
    refine ⟨_, hcall, fulfils_of_registers rfl rfl ⟨?_, rfl⟩⟩
    rw [BitVec.toNat_ushiftRight, Nat.shiftRight_eq_div_pow]
  | shiftLeftWord =>
    obtain ⟨carry, hcall⟩ := call_shiftLeftWord m
    refine ⟨_, hcall, fulfils_of_registers rfl rfl ⟨?_, rfl⟩⟩
    show ((withHL m.registers _).h ++ (withHL m.registers _).l : Word).toNat = _
    rw [withHL_hl, BitVec.toNat_shiftLeft, Nat.shiftLeft_eq]
  | shiftRightWord =>
    obtain ⟨carry, x, hcall⟩ := call_shiftRightWord m
    refine ⟨_, hcall, fulfils_of_registers rfl rfl ⟨?_, rfl⟩⟩
    show ((withHL m.registers _).h ++ (withHL m.registers _).l : Word).toNat = _
    rw [withHL_hl, BitVec.toNat_ushiftRight, Nat.shiftRight_eq_div_pow]
  -- The difference is taken modulo 2^16, and the carry says whether it was below zero.
  | subtractWord =>
    refine ⟨_, call_subtractWord m, fulfils_of_registers rfl rfl ⟨?_, ?_⟩⟩
    · show (((withHL m.registers _).h ++ (withHL m.registers _).l : Word).toNat : Int) = _
      rw [withHL_hl, BitVec.toNat_sub]
      have hhl := m.hl.isLt
      have hde := (m.pair .d).isLt
      show (((2 ^ 16 - (m.pair .d).toNat + m.hl.toNat) % 2 ^ 16 : Nat) : Int) = _
      omega
    · show (m.hl.usubOverflow (m.pair .d) = true ↔ _)
      rw [BitVec.usubOverflow_eq, decide_eq_true_eq, BitVec.lt_def]

end Accumulator.Machine
