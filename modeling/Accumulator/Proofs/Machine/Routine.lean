import Mathlib.Logic.Function.Iterate
import Accumulator.Machine.Step
import Accumulator.Proofs.Machine.Memory

/-!
# What the library routines compute

A call always returns. The shift routines count `c` down to zero and change the rest of the
registers once per round; `call_of_shifts` says so for any routine of that shape, and what one round
does to the registers is all that is left to say of each. The subtraction of words goes byte by byte
with the borrow between them.
-/

namespace Accumulator.Machine

variable {m : Machine} {routine : Routine}

/-! ## Shift loops -/

/-- After `RZ`, `k` lines change the registers by `g` and go back to the start of the loop. The
change leaves the count alone and does not look at it. -/
structure Shifts (routine : Routine) (k : Nat) (g : Registers Byte → Registers Byte) : Prop where
  enter : ∀ m steps, runRoutine routine (steps + 1) 0 m =
    runRoutine routine steps 1 (m.setCounter .c (m.registers.c + 1))
  count : ∀ m steps, runRoutine routine (steps + 1) 1 m =
    runRoutine routine steps 2 (m.setCounter .c (m.registers.c - 1))
  exit : ∀ m steps, runRoutine routine (steps + 1) 2 m =
    if m.zero then m.returnFrom routine else runRoutine routine steps 3 m
  round : ∀ m steps, ∃ zero carry, runRoutine routine (steps + k) 3 m =
    runRoutine routine steps 1 { m with registers := g m.registers, zero, carry }
  frame : ∀ rs x, g { rs with c := x } = { g rs with c := x }

namespace Shifts

variable {k : Nat} {g : Registers Byte → Registers Byte}

/-- The loop does not look at its counter, so what it does to the other registers can be said
without it. -/
theorem iterate_frame (h : Shifts routine k g) (n : Nat) (rs : Registers Byte) (x : Byte) :
    g^[n] { rs with c := x } = { g^[n] rs with c := x } := by
  induction n generalizing rs with
  | zero => rfl
  | succ n ih => rw [Function.iterate_succ_apply, h.frame, ih, ← Function.iterate_succ_apply]

/-- The loop runs as often as the count says, by induction on the count. Each round takes the steps
that `Shifts` allows for. -/
theorem run (h : Shifts routine k g) {n steps : Nat} (hn : (m.registers.c - 1).toNat = n)
    (hsteps : (k + 2) * n + 2 ≤ steps) :
    ∃ carry, runRoutine routine steps 1 m =
      { m with registers := { g^[n] m.registers with c := 0 }, zero := true, carry }.returnFrom
        routine := by
  induction n generalizing m steps with
  | zero =>
    obtain ⟨steps, rfl⟩ := Nat.exists_eq_add_of_le' hsteps
    have hc : m.registers.c - 1 = 0 := BitVec.eq_of_toNat_eq hn
    refine ⟨m.carry, ?_⟩
    rw [show steps + ((k + 2) * 0 + 2) = steps + 1 + 1 by omega, h.count, h.exit, hc]
    rfl
  | succ n ih =>
    obtain ⟨steps, rfl⟩ := Nat.exists_eq_add_of_le' hsteps
    have hc : (m.registers.c - 1 == 0) = false := by
      rw [beq_eq_false_iff_ne]
      intro hzero
      rw [hzero] at hn
      cases hn
    obtain ⟨zero, carry, hround⟩ :=
      h.round (m.setCounter .c (m.registers.c - 1)) (steps + ((k + 2) * n + 2))
    rw [show steps + ((k + 2) * (n + 1) + 2) = steps + ((k + 2) * n + 2) + k + 1 + 1 by
      rw [Nat.mul_succ]; omega, h.count, h.exit]
    have hzero : (m.setCounter .c (m.registers.c - 1)).zero = false := hc
    rw [hzero, if_neg Bool.false_ne_true, hround]
    -- The round leaves the count alone, so one round less is left.
    have hregisters : (m.setCounter .c (m.registers.c - 1)).registers =
        { m.registers with c := m.registers.c - 1 } := rfl
    rw [hregisters, h.frame]
    have hcount : (m.registers.c - 1 - 1).toNat = n := by
      generalize m.registers.c - 1 = c at hn
      bv_omega
    obtain ⟨carry', hrest⟩ := @ih { m.setCounter .c (m.registers.c - 1) with
      registers := { g m.registers with c := m.registers.c - 1 }, zero, carry }
      (steps + ((k + 2) * n + 2)) hcount (Nat.le_add_left _ _)
    refine ⟨carry', hrest.trans ?_⟩
    rw [h.iterate_frame, Function.iterate_succ_apply]
    rfl

end Shifts

/-- The mark that a call pushes is still there when the routine returns. -/
theorem returnFrom_push {rs : Registers Byte} {zero carry : Bool} :
    { m.push returnMark with registers := rs, zero, carry }.returnFrom routine =
      .ok { m with
        registers := rs, zero, carry, memory := m.memory.writeWord (m.sp - 2) returnMark } := by
  have hmark : (m.memory.writeWord (m.sp - 2) returnMark).readWord (m.sp - 2) = returnMark :=
    Memory.readWord_writeWord_self _ _ _
  have hsp : m.sp - 2 + 2 = m.sp := BitVec.sub_add_cancel m.sp 2
  simp only [returnFrom, pop, push, hmark, hsp, if_true]

/-- A shift routine changes the registers as often as `c` says, and leaves `c` zero. The steps that
a call may take are enough for any count, which is a byte. -/
theorem call_of_shifts {k : Nat} {g : Registers Byte → Registers Byte} (h : Shifts routine k g)
    (hk : k ≤ 100) (m : Machine) :
    ∃ carry, m.call routine = .ok { m with
      registers := { g^[m.registers.c.toNat] m.registers with c := 0 }
      zero := true, carry, memory := m.memory.writeWord (m.sp - 2) returnMark } := by
  have hc : (m.registers.c + 1 - 1).toNat = m.registers.c.toNat := by
    rw [BitVec.add_sub_cancel]
  have hlt := m.registers.c.isLt
  have hsteps : (k + 2) * m.registers.c.toNat + 2 ≤ 99999 := by
    have : (k + 2) * m.registers.c.toNat ≤ 102 * 255 := Nat.mul_le_mul (by omega) (by omega)
    omega
  obtain ⟨carry, hrun⟩ :=
    @Shifts.run ((m.push returnMark).setCounter .c (m.registers.c + 1)) routine k g h _ 99999 hc
      hsteps
  refine ⟨carry, (h.enter (m.push returnMark) 99999).trans (hrun.trans ?_)⟩
  have hregisters : ((m.push returnMark).setCounter .c (m.registers.c + 1)).registers =
      { m.registers with c := m.registers.c + 1 } := rfl
  rw [hregisters, h.iterate_frame]
  exact returnFrom_push

/-! ## Bytes and words -/

theorem add_self_eq_shiftLeft {w : Nat} (x : BitVec w) : x + x = x <<< 1 := by
  apply BitVec.eq_of_toNat_eq
  rw [BitVec.toNat_add, BitVec.toNat_shiftLeft, Nat.shiftLeft_eq, Nat.pow_one, Nat.mul_two]

/-- The high byte of a word shifted right is the high byte shifted right. -/
theorem high_shiftRight (h l : Byte) : ((h ++ l : Word) >>> 1).extractLsb' 8 8 = h >>> 1 := by
  apply BitVec.eq_of_getLsbD_eq
  intro i hi
  simp only [BitVec.getLsbD_extractLsb', BitVec.getLsbD_ushiftRight, BitVec.getLsbD_append, hi,
    decide_true, Bool.true_and]
  rw [if_neg (by omega)]
  congr 1
  omega

/-- The lowest bit of the high byte goes to the top of the low byte. -/
theorem low_shiftRight (h l : Byte) :
    ((h ++ l : Word) >>> 1).extractLsb' 0 8 = l >>> 1 ||| (if h.getLsbD 0 then 0x80 else 0) := by
  apply BitVec.eq_of_getLsbD_eq
  intro i hi
  simp only [BitVec.getLsbD_extractLsb', BitVec.getLsbD_ushiftRight, BitVec.getLsbD_append, hi,
    decide_true, Bool.true_and, BitVec.getLsbD_or]
  split
  next hlt =>
    have hbits : i = 0 ∨ i = 1 ∨ i = 2 ∨ i = 3 ∨ i = 4 ∨ i = 5 ∨ i = 6 := by omega
    cases h.getLsbD 0 <;> obtain rfl | rfl | rfl | rfl | rfl | rfl | rfl := hbits <;> simp
  next hge =>
    obtain rfl : i = 7 := by omega
    cases h.getLsbD 0 <;> simp

theorem toNat_append_byte (h l : Byte) : (h ++ l : Word).toNat = h.toNat * 256 + l.toNat := by
  rw [BitVec.toNat_append, Nat.shiftLeft_eq, Nat.mul_comm, ← Nat.two_pow_add_eq_or_of_lt l.isLt,
    Nat.mul_comm]

/-- A difference of words, by bytes. -/
theorem append_sub_append (h l d e : Byte) :
    (h ++ l : Word) - (d ++ e) = (h - d - (if l.usubOverflow e then 1 else 0)) ++ (l - e) := by
  apply BitVec.eq_of_toNat_eq
  rw [toNat_append_byte, BitVec.toNat_sub, toNat_append_byte, toNat_append_byte,
    BitVec.usubOverflow_eq]
  by_cases hlt : l < e
  · rw [if_pos (decide_eq_true hlt)]
    bv_omega
  · rw [if_neg (by simpa using hlt)]
    bv_omega

/-- The borrow of a difference of words, by bytes. -/
theorem usubOverflow_append (h l d e : Byte) :
    (h ++ l : Word).usubOverflow (d ++ e) =
      (h.usubOverflow d || (h - d).usubOverflow (if l.usubOverflow e then 1 else 0)) := by
  simp only [BitVec.usubOverflow_eq, BitVec.lt_def, toNat_append_byte]
  rw [Bool.eq_iff_iff, Bool.or_eq_true]
  simp only [decide_eq_true_eq]
  by_cases hlt : l < e
  · rw [if_pos (by simpa [BitVec.lt_def] using hlt)]
    bv_omega
  · rw [if_neg (by simpa [BitVec.lt_def] using hlt)]
    bv_omega

/-! ## The routines -/

/-- The registers with another word in HL. -/
def withHL (rs : Registers Byte) (w : Word) : Registers Byte :=
  { rs with h := w.extractLsb' 8 8, l := w.extractLsb' 0 8 }

theorem withHL_self (rs : Registers Byte) : withHL rs (rs.h ++ rs.l) = rs := by
  rw [withHL, high_of_append, low_of_append]

theorem withHL_hl (rs : Registers Byte) (w : Word) :
    (withHL rs w).h ++ (withHL rs w).l = w :=
  high_append_low w

/-- Each round of the first routine doubles the accumulator. -/
theorem shifts_shiftLeft : Shifts .shiftLeft 2 fun rs => { rs with a := rs.a <<< 1 } where
  enter _ _ := rfl
  count _ _ := rfl
  exit _ _ := rfl
  round m steps := by
    refine ⟨m.registers.a + m.registers.a == 0, m.registers.a.uaddOverflow m.registers.a, ?_⟩
    rw [← add_self_eq_shiftLeft]
    rfl
  frame _ _ := rfl

/-- Each round of the second routine halves the accumulator, with the carry cleared before. -/
theorem shifts_shiftRight : Shifts .shiftRight 3 fun rs => { rs with a := rs.a >>> 1 } where
  enter _ _ := rfl
  count _ _ := rfl
  exit _ _ := rfl
  round m steps := by
    refine ⟨m.registers.a == 0, m.registers.a.getLsbD 0, ?_⟩
    show runRoutine .shiftRight steps 1 (m.alu .or m.registers.a).rotateRight = _
    simp only [alu, aluResult, rotateRight, BitVec.or_self]
    show runRoutine .shiftRight steps 1 { m with
      registers := { m.registers with a := m.registers.a >>> 1 ||| 0#8 }
      zero := m.registers.a == 0, carry := m.registers.a.getLsbD 0 } = _
    rw [BitVec.or_zero]
  frame _ _ := rfl

/-- Each round of the third routine doubles HL. -/
theorem shifts_shiftLeftWord :
    Shifts .shiftLeftWord 2 fun rs => withHL rs ((rs.h ++ rs.l) <<< 1) where
  enter _ _ := rfl
  count _ _ := rfl
  exit _ _ := rfl
  round m steps := by
    refine ⟨m.zero, m.hl.uaddOverflow m.hl, ?_⟩
    rw [← add_self_eq_shiftLeft]
    rfl
  frame _ _ := rfl

/-- Each round of the fourth routine halves HL: the high byte first, whose lowest bit goes through
the carry into the low byte. -/
theorem shifts_shiftRightWord :
    Shifts .shiftRightWord 8 fun rs =>
      { withHL rs ((rs.h ++ rs.l) >>> 1) with
        a := ((rs.h ++ rs.l : Word) >>> 1).extractLsb' 0 8 } where
  enter _ _ := rfl
  count _ _ := rfl
  exit _ _ := rfl
  round m steps := by
    refine ⟨m.registers.a ||| m.registers.a == 0, m.registers.l.getLsbD 0, ?_⟩
    simp only [withHL, high_shiftRight, low_shiftRight]
    show runRoutine .shiftRightWord steps 1 { m with
      registers := { m.registers with
        h := m.registers.h >>> 1 ||| 0#8
        l := m.registers.l >>> 1 ||| (if m.registers.h.getLsbD 0 then 0x80 else 0)
        a := m.registers.l >>> 1 ||| (if m.registers.h.getLsbD 0 then 0x80 else 0) }
      zero := m.registers.a ||| m.registers.a == 0, carry := m.registers.l.getLsbD 0 } = _
    rw [BitVec.or_zero]
  frame _ _ := rfl

/-! ## Rounds taken together -/

theorem iterate_accumulator (f : Byte → Byte) (n : Nat) (rs : Registers Byte) :
    (fun rs : Registers Byte => { rs with a := f rs.a })^[n] rs = { rs with a := f^[n] rs.a } := by
  induction n generalizing rs with
  | zero => rfl
  | succ n ih => rw [Function.iterate_succ_apply, ih, Function.iterate_succ_apply]

/-- Shifting by one place `n` times is shifting by `n` places. -/
theorem iterate_shiftLeft {w : Nat} (n : Nat) (x : BitVec w) :
    (fun x : BitVec w => x <<< 1)^[n] x = x <<< n := by
  induction n generalizing x with
  | zero => simp
  | succ n ih => rw [Function.iterate_succ_apply, ih, Nat.add_comm, BitVec.shiftLeft_add]

theorem iterate_shiftRight {w : Nat} (n : Nat) (x : BitVec w) :
    (fun x : BitVec w => x >>> 1)^[n] x = x >>> n := by
  induction n generalizing x with
  | zero => simp
  | succ n ih => rw [Function.iterate_succ_apply, ih, Nat.add_comm, BitVec.shiftRight_add]

theorem iterate_withHL (f : Word → Word) (n : Nat) (rs : Registers Byte) :
    (fun rs : Registers Byte => withHL rs (f (rs.h ++ rs.l)))^[n] rs =
      withHL rs (f^[n] (rs.h ++ rs.l)) := by
  induction n generalizing rs with
  | zero => exact (withHL_self rs).symm
  | succ n ih =>
    rw [Function.iterate_succ_apply, ih, withHL_hl, Function.iterate_succ_apply]
    rfl

/-- The routine that shifts right goes through the accumulator. -/
theorem iterate_shiftRightWord (n : Nat) (rs : Registers Byte) :
    ∃ x, (fun rs : Registers Byte =>
        { withHL rs ((rs.h ++ rs.l) >>> 1) with
          a := ((rs.h ++ rs.l : Word) >>> 1).extractLsb' 0 8 })^[n] rs =
      { withHL rs ((rs.h ++ rs.l) >>> n) with a := x } := by
  induction n generalizing rs with
  | zero => exact ⟨rs.a, by rw [BitVec.ushiftRight_zero, withHL_self]; rfl⟩
  | succ n ih =>
    obtain ⟨x, hx⟩ := ih { withHL rs ((rs.h ++ rs.l) >>> 1) with
      a := ((rs.h ++ rs.l : Word) >>> 1).extractLsb' 0 8 }
    refine ⟨x, ?_⟩
    rw [Function.iterate_succ_apply, hx]
    simp only [withHL, high_append_low, ← BitVec.shiftRight_add, Nat.add_comm n 1]

/-- A call shifts the accumulator left by as many places as `c` says. -/
theorem call_shiftLeft (m : Machine) :
    ∃ carry, m.call .shiftLeft = .ok { m with
      registers := { m.registers with a := m.registers.a <<< m.registers.c.toNat, c := 0 }
      zero := true, carry, memory := m.memory.writeWord (m.sp - 2) returnMark } := by
  obtain ⟨carry, hcall⟩ := call_of_shifts shifts_shiftLeft (by decide) m
  rw [iterate_accumulator (· <<< 1), iterate_shiftLeft] at hcall
  exact ⟨carry, hcall⟩

/-- A call shifts the accumulator right by as many places as `c` says. -/
theorem call_shiftRight (m : Machine) :
    ∃ carry, m.call .shiftRight = .ok { m with
      registers := { m.registers with a := m.registers.a >>> m.registers.c.toNat, c := 0 }
      zero := true, carry, memory := m.memory.writeWord (m.sp - 2) returnMark } := by
  obtain ⟨carry, hcall⟩ := call_of_shifts shifts_shiftRight (by decide) m
  rw [iterate_accumulator (· >>> 1), iterate_shiftRight] at hcall
  exact ⟨carry, hcall⟩

/-- A call shifts HL left by as many places as `c` says. -/
theorem call_shiftLeftWord (m : Machine) :
    ∃ carry, m.call .shiftLeftWord = .ok { m with
      registers := { withHL m.registers (m.hl <<< m.registers.c.toNat) with c := 0 }
      zero := true, carry, memory := m.memory.writeWord (m.sp - 2) returnMark } := by
  obtain ⟨carry, hcall⟩ := call_of_shifts shifts_shiftLeftWord (by decide) m
  rw [iterate_withHL (· <<< 1), iterate_shiftLeft] at hcall
  exact ⟨carry, hcall⟩

/-- A call shifts HL right by as many places as `c` says, and destroys the accumulator. -/
theorem call_shiftRightWord (m : Machine) :
    ∃ carry x, m.call .shiftRightWord = .ok { m with
      registers := { withHL m.registers (m.hl >>> m.registers.c.toNat) with a := x, c := 0 }
      zero := true, carry, memory := m.memory.writeWord (m.sp - 2) returnMark } := by
  obtain ⟨carry, hcall⟩ := call_of_shifts shifts_shiftRightWord (by decide) m
  obtain ⟨x, hx⟩ := iterate_shiftRightWord m.registers.c.toNat m.registers
  rw [hx] at hcall
  exact ⟨carry, x, hcall⟩

/-- HL minus DE, with carry on borrow. -/
theorem call_subtractWord (m : Machine) :
    m.call .subtractWord = .ok { m with
      registers :=
        { withHL m.registers (m.pair .h - m.pair .d) with
          a := (m.pair .h - m.pair .d).extractLsb' 8 8 }
      zero := (m.pair .h - m.pair .d).extractLsb' 8 8 == 0
      carry := (m.pair .h).usubOverflow (m.pair .d)
      memory := m.memory.writeWord (m.sp - 2) returnMark } := by
  simp only [pair, hl, append_sub_append, usubOverflow_append, withHL, high_of_append,
    low_of_append]
  exact returnFrom_push

/-- Every call returns. -/
theorem exists_call (m : Machine) (routine : Routine) : ∃ m', m.call routine = .ok m' := by
  cases routine with
  | shiftLeft => exact (call_shiftLeft m).elim fun _ h => ⟨_, h⟩
  | shiftRight => exact (call_shiftRight m).elim fun _ h => ⟨_, h⟩
  | shiftLeftWord => exact (call_shiftLeftWord m).elim fun _ h => ⟨_, h⟩
  | shiftRightWord =>
    obtain ⟨carry, x, hcall⟩ := call_shiftRightWord m
    exact ⟨_, hcall⟩
  | subtractWord => exact ⟨_, call_subtractWord m⟩

end Accumulator.Machine
