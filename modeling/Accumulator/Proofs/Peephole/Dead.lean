import Accumulator.Peephole.Dead
import Accumulator.Proofs.Machine.Call

/-!
# What a dead register holds does not matter

The deadness test sees nothing but the effect table, and it gives up where control may leave the
straight line. Yet its answer holds for the rest of the run, jumps and calls included. To see this,
follow two runs from machines that differ in one register at most (`AgreeBut`):

* an instruction that does not read the register does the same to both, and if it writes the
  register the machines are equal from there on (`AgreeBut.step`);
* so a run from where the register is dead either meets a write, and then the two runs are one, or
  goes straight on to the end of the code (`runFrom_agreeBut`).

Main statement: nothing that can be seen at the end of a run depends on what a dead register held
(`noninterference_of_isDeadAfter`).
-/

namespace Accumulator

/-- What the deadness test asks of the next instruction. -/
theorem Peephole.isDead_cons_iff {r : Reg} {i : Instr} {rest : List Instr} :
    isDead r (i :: rest) = true ↔
      i.isBarrier = false ∧ i.reads r = false ∧ (i.writes r = true ∨ isDead r rest = true) := by
  rw [isDead]
  cases i.isBarrier <;> cases i.reads r <;> cases i.writes r <;> simp

theorem Registers.ext_of_get {α : Type} {rs rs' : Registers α}
    (h : ∀ q, q ≠ .m → rs'.get q = rs.get q) : rs' = rs := by
  obtain ⟨a, b, c, d, e, h₁, l⟩ := rs
  obtain ⟨a', b', c', d', e', h₁', l'⟩ := rs'
  rw [Registers.mk.injEq]
  exact ⟨h .a (by decide), h .b (by decide), h .c (by decide), h .d (by decide), h .e (by decide),
    h .h (by decide), h .l (by decide)⟩

namespace Machine

open Peephole (isDead isDeadAfter isDead_cons_iff)

variable {r : Reg} {i : Instr} {m m' : Machine}

/-- Two machines that are equal except for what one register holds. -/
structure AgreeBut (r : Reg) (m m' : Machine) : Prop where
  registers : ∀ q, q ≠ .m → q ≠ r → m'.registers.get q = m.registers.get q
  sp : m'.sp = m.sp
  zero : m'.zero = m.zero
  carry : m'.carry = m.carry
  memory : m'.memory = m.memory
  addresses : m'.addresses = m.addresses

/-! ## One step -/

/-- Setting a register and then taking a step that does not read it. No call is such a step, so this
is `execute_set`. -/
theorem step_set (x : Byte) (hr : r ≠ .m) (hbarrier : i.isBarrier = false)
    (hreads : i.reads r = false) :
    (m.set r x).step i = (m.step i).map fun m' => if i.writes r then m' else m'.set r x := by
  rw [step_eq_execute hbarrier, step_eq_execute hbarrier, execute_set x hr hbarrier hreads]

namespace AgreeBut

theorem refl (r : Reg) (m : Machine) : AgreeBut r m m :=
  ⟨fun _ _ _ => rfl, rfl, rfl, rfl, rfl, rfl⟩

theorem set (m : Machine) (x : Byte) (hr : r ≠ .m) : AgreeBut r m (m.set r x) := by
  rw [set_of_ne hr]
  exact ⟨fun q hq hne => Registers.get_set_of_ne _ x hr hq hne, rfl, rfl, rfl, rfl, rfl⟩

/-- The second machine is the first one with another byte in the register. -/
theorem eq_set (h : AgreeBut r m m') (hr : r ≠ .m) : m' = m.set r (m'.registers.get r) := by
  obtain ⟨registers, sp, zero, carry, memory, addresses⟩ := m'
  obtain ⟨hregisters, rfl, rfl, rfl, rfl, rfl⟩ := h
  have hset : registers = m.registers.set r (registers.get r) := by
    refine Registers.ext_of_get fun q hq => ?_
    by_cases hne : q = r
    · rw [hne, Registers.get_set_self _ _ hr]
    · rw [Registers.get_set_of_ne _ _ hr hq hne]
      exact hregisters q hq hne
  rw [set_of_ne hr]
  exact congrArg (fun rs => { m with registers := rs }) hset

/-- An instruction that does not read the register ends the same way on both machines. What it
leaves differs in the register at most, and not at all if it writes the register. -/
theorem step (h : AgreeBut r m m') (hr : r ≠ .m) (hbarrier : i.isBarrier = false)
    (hreads : i.reads r = false) :
    (∃ fault, m.step i = .error fault ∧ m'.step i = .error fault) ∨
      ∃ m₁ m₁', m.step i = .ok m₁ ∧ m'.step i = .ok m₁' ∧ AgreeBut r m₁ m₁' ∧
        (i.writes r = true → m₁' = m₁) := by
  have hstep := step_set (m := m) (m'.registers.get r) hr hbarrier hreads
  rw [← h.eq_set hr] at hstep
  cases hm : m.step i with
  | error fault =>
    rw [hm] at hstep
    exact .inl ⟨fault, rfl, hstep⟩
  | ok m₁ =>
    rw [hm] at hstep
    refine .inr ⟨m₁, _, rfl, hstep, ?_, fun hwrites => if_pos hwrites⟩
    split
    next => exact refl r m₁
    next => exact set m₁ _ hr

end AgreeBut

/-! ## Whole runs -/

/-- Two runs that ended with the same fault, or both without one, on machines that are equal except
for what one register holds. -/
structure Outcome.AgreeBut (r : Reg) (o o' : Outcome) : Prop where
  fault : o'.fault = o.fault
  machine : Machine.AgreeBut r o.machine o'.machine

/-- At the end of the code, whether a run ends well depends on the stack pointer, which is the
same. -/
theorem finish_agreeBut (h : AgreeBut r m m') : m.finish.AgreeBut r m'.finish where
  fault := by rw [finish, finish, h.sp]
  machine := h

variable {code : List Instr}

/-- From where a register is dead, both runs end the same way. By induction on the steps: an
instruction that does not read the register keeps the machines in agreement, and one that writes it
makes them equal. -/
theorem runFrom_agreeBut {steps pos : Nat} (h : AgreeBut r m m') (hr : r ≠ .m)
    (hdead : isDead r (code.drop pos) = true) :
    (runFrom code steps pos m).AgreeBut r (runFrom code steps pos m') := by
  -- By induction on the code ahead, as the test goes: while the machines may differ no jump is
  -- met, so both runs stay in line.
  induction hcode : code.drop pos generalizing steps pos m m' with
  | nil =>
    have hend : code[pos]? = none := by rw [← List.head?_drop, hcode, List.head?_nil]
    rw [runFrom_end hend, runFrom_end hend]
    exact finish_agreeBut h
  | cons i rest ih =>
    obtain ⟨hi, hrest⟩ := getElem?_of_drop hcode
    rw [hcode, isDead_cons_iff] at hdead
    obtain ⟨hbarrier, hreads, hafter⟩ := hdead
    cases steps with
    | zero =>
      rw [runFrom_zero hi, runFrom_zero hi]
      exact ⟨rfl, h⟩
    | succ steps =>
      have hcontrol := isControl_of_not_barrier hbarrier
      rw [runFrom_step hi hcontrol, runFrom_step hi hcontrol]
      rcases h.step hr hbarrier hreads with
        ⟨fault, hm, hm'⟩ | ⟨m₁, m₁', hm, hm', hagree, hequal⟩
      · rw [hm, hm']
        exact ⟨rfl, h⟩
      · rw [hm, hm']
        rcases hafter with hwrites | hlater
        · -- One machine from here on, so wherever the run goes it is the same.
          rw [hequal hwrites]
          exact ⟨rfl, .refl r _⟩
        · exact ih hagree (by rwa [hrest]) hrest

/-- What a dead register holds is never seen: from two machines that are equal except for it, the
run from the next instruction on ends both times without a fault or with the same one, and with the
same memory, stack pointer and flags. -/
theorem noninterference_of_isDeadAfter {pos : Nat} (hr : r ≠ .m)
    (hdead : isDeadAfter code pos r = true) (h : AgreeBut r m m') (steps : Nat) :
    let o := runFrom code steps (pos + 1) m
    let o' := runFrom code steps (pos + 1) m'
    o'.fault = o.fault ∧ o'.machine.memory = o.machine.memory ∧ o'.machine.sp = o.machine.sp ∧
      o'.machine.zero = o.machine.zero ∧ o'.machine.carry = o.machine.carry := by
  intro o o'
  have hend : o.AgreeBut r o' := runFrom_agreeBut h hr hdead
  exact ⟨hend.fault, hend.machine.memory, hend.machine.sp, hend.machine.zero, hend.machine.carry⟩

/-- Adds 3, 2 and 1 to the byte that HL points at. What the first instruction loads is not used. -/
def addsCountdown : List Instr :=
  [.mvi .b 9, .mov .a .m, .mvi .b 3, .alu .add .b, .dcr .b, .jump .nz (-2), .mov .m .a]

/-- Register `b` is loaded again before it is read, so what it holds behind the first instruction
has no effect, although the code jumps back. -/
theorem noninterference_addsCountdown :
    isDeadAfter addsCountdown 0 .b = true ∧ AgreeBut .b {} (Machine.set {} .b 9) ∧
      let o := runFrom addsCountdown maxSteps 1 {}
      let o' := runFrom addsCountdown maxSteps 1 (Machine.set {} .b 9)
      o'.fault = o.fault ∧ o'.machine.memory = o.machine.memory ∧ o'.machine.sp = o.machine.sp ∧
        o'.machine.zero = o.machine.zero ∧ o'.machine.carry = o.machine.carry := by
  have hdead : isDeadAfter addsCountdown 0 .b = true := by decide
  have hagree : AgreeBut .b {} (Machine.set {} .b 9) := .set {} 9 (by decide)
  exact ⟨hdead, hagree, noninterference_of_isDeadAfter (by decide) hdead hagree maxSteps⟩

end Machine

end Accumulator
