import Accumulator.Proofs.Machine.Effects
import Accumulator.Proofs.Machine.Trace

/-!
# Calls and the stack pointer

The routines work on registers only. So a call changes nothing but registers, flags and the two
bytes below the stack pointer that hold the return address, and what is known of the other
instructions extends to calls: `step_withMemory` is `execute_withMemory` with them. The stack
pointer moves with `PUSH` and `POP` alone, as long as it is no operand itself (`step_sp`).
-/

namespace Accumulator

namespace Instr

/-- The operand of an instruction that is a pair. -/
def pair? : Instr → Option Pair
  | ldax p | stax p | lxi p _ | inx p | dcx p | dad p | push p | pop p => some p
  | _ => none

/-- Instructions that use the stack. -/
def usesStack : Instr → Bool
  | push _ | pop _ | xthl | call _ => true
  | _ => false

/-- What an instruction adds to the stack pointer. -/
def spChange : Instr → Word
  | push _ => -2
  | pop _ => 2
  | _ => 0

end Instr

namespace Machine

/-! ## The stack pointer -/

/-- Loading any other pair leaves the stack pointer where it is. -/
theorem sp_setPair {m : Machine} {p : Pair} {v : Word} (hp : p ≠ .sp) :
    (m.setPair p v).sp = m.sp := by
  cases p <;> first | contradiction | rfl

/-- An instruction that does not name the stack pointer moves it by `spChange`. Only a push and a
pop do move it. -/
theorem execute_sp {m m' : Machine} {i : Instr} (h : m.execute i = .ok m')
    (hpair : i.pair? ≠ some .sp) : m'.sp = m.sp + i.spChange := by
  have hne {p : Pair} (hp : some p ≠ some Pair.sp) : p ≠ .sp := fun h => hp (h ▸ rfl)
  cases i with
  | mov _ _ | mvi _ _ | ldax _ | inr _ | dcr _ | cma | ral | rar =>
    cases h
    simp [sp_set, setCounter, rotateLeft, rotateRight, Instr.spChange]
  | alu op _ | aluImm op _ =>
    cases h
    cases op <;> simp [alu, sp_set, Instr.spChange]
  | lda _ =>
    obtain ⟨_, _, h⟩ := exists_ok_of_bind h
    cases h
    simp [sp_set, Instr.spChange]
  | lxi p _ =>
    obtain ⟨_, _, h⟩ := exists_ok_of_bind h
    cases h
    simp [sp_setPair (hne hpair), Instr.spChange]
  | lhld _ =>
    obtain ⟨_, _, h⟩ := exists_ok_of_bind h
    cases h
    simp [sp_setPair, Instr.spChange]
  | sta _ | shld _ =>
    obtain ⟨_, _, h⟩ := exists_ok_of_bind h
    cases h
    simp [store, storeWord, Instr.spChange]
  | inx p | dcx p =>
    cases h
    simp [sp_setPair (hne hpair), Instr.spChange]
  | pop p =>
    cases h
    simp [sp_setPair (hne hpair), Instr.spChange]
  | push _ =>
    cases h
    simp [push, Instr.spChange]
    bv_omega
  -- xchg | These change registers or memory at most; the stack pointer is named by none of them.
  | dad _ | xchg | xthl | stax _ | call _ | jump _ _ | hlt | comment _ =>
    cases h
    simp [sp_setPair, store, storeWord, Instr.spChange]

/-- A register, or the byte HL points at, does not depend on the stack pointer. -/
theorem get_withSp (m : Machine) (sp : Word) (r : Reg) : { m with sp }.get r = m.get r := by
  cases r <;> rfl

theorem set_withSp (m : Machine) (sp : Word) (r : Reg) (x : Byte) :
    { m with sp }.set r x = { m.set r x with sp } := by
  cases r <;> rfl

theorem pair_withSp (m : Machine) (sp : Word) {p : Pair} (hp : p ≠ .sp) :
    { m with sp }.pair p = m.pair p := by
  cases p <;> first | rfl | contradiction

theorem setPair_withSp (m : Machine) (sp : Word) {p : Pair} (hp : p ≠ .sp) (v : Word) :
    { m with sp }.setPair p v = { m.setPair p v with sp } := by
  cases p <;> first | rfl | contradiction

/-- Where the stack is does not matter to an instruction that does not use it. By cases on the
instruction; those that use the stack or leave the line are excluded. -/
theorem execute_withSp {m m' : Machine} {i : Instr} (h : m.execute i = .ok m')
    (hbarrier : i.isBarrier = false) (hpair : i.pair? ≠ some .sp)
    (hstack : i.usesStack = false) (sp : Word) :
    { m with sp }.execute i = .ok { m' with sp } := by
  have hne {p : Pair} (hp : some p ≠ some Pair.sp) : p ≠ .sp := fun h => hp (h ▸ rfl)
  cases i with
  | mov _ _ | mvi _ _ =>
    cases h
    simp only [execute, get_withSp, set_withSp]
  | alu op _ | aluImm op _ =>
    cases h
    simp only [execute, get_withSp]
    cases op <;> rfl
  | inr r | dcr r =>
    cases h
    simp only [execute, get_withSp]
    cases r <;> rfl
  | ldax p | stax p =>
    cases h
    simp only [execute, pair_withSp m sp (hne hpair)]
    rfl
  | lda a | sta a | lhld a | shld a =>
    obtain ⟨x, hx, h⟩ := exists_ok_of_bind h
    cases h
    have himm : { m with sp }.imm a = .ok x := hx
    simp only [execute, himm, bind, Except.bind]
    rfl
  | lxi p a =>
    obtain ⟨x, hx, h⟩ := exists_ok_of_bind h
    cases h
    have himm : { m with sp }.imm a = .ok x := hx
    simp only [execute, himm, bind, Except.bind, setPair_withSp m sp (hne hpair)]
    rfl
  | inx p | dcx p =>
    cases h
    simp only [execute, pair_withSp m sp (hne hpair), setPair_withSp m sp (hne hpair)]
  | dad p =>
    cases h
    simp only [execute, pair_withSp m sp (hne hpair)]
    rfl
  | cma | ral | rar | xchg | comment _ =>
    cases h
    rfl
  | push _ | pop _ | xthl => cases hstack
  | call _ | jump _ _ | hlt => cases hbarrier

/-! ## Routines -/

/-- The instructions in routines work on registers and do not name the stack pointer. -/
theorem register_only_of_mem_body {routine : Routine} {line : Routine.Line} {i : Instr}
    (hline : line ∈ routine.body) (hi : line.action = .instr i) :
    i.isBarrier = false ∧ i.readsMemory = false ∧ i.writesMemory = false ∧
      i.pair? ≠ some .sp ∧ i.usesStack = false := by
  have hall : routine.body.all (fun line => match line.action with
      | .instr i => !i.isBarrier && !i.readsMemory && !i.writesMemory &&
        decide (i.pair? ≠ some .sp) && !i.usesStack
      | _ => true) = true := by
    cases routine <;> rfl
  have := List.all_eq_true.mp hall line hline
  rw [hi] at this
  simpa [and_assoc] using this

/-- Nor do the subtractions in them read memory. -/
theorem ne_m_of_mem_body {routine : Routine} {line : Routine.Line} {src : Reg}
    (hline : line ∈ routine.body) (hsrc : line.action = .subtractBorrow src) : src ≠ .m := by
  have hall : routine.body.all (fun line => match line.action with
      | .subtractBorrow src => decide (src ≠ .m)
      | _ => true) = true := by
    cases routine <;> rfl
  have := List.all_eq_true.mp hall line hline
  rw [hsrc] at this
  simpa using this

/-- What a routine that returns does: it pops its return address, and apart from that it does not
look at memory or care where the stack is. -/
structure Returned (m m' : Machine) (again : Machine → Except Fault Machine) : Prop where
  sp : m'.sp = m.sp + 2
  addresses : m'.addresses = m.addresses
  withStack : ∀ (sp : Word) (memory : Memory), memory.readWord sp = m.memory.readWord m.sp →
    again { m with sp, memory } = .ok { m' with sp := sp + 2, memory }

/-- A return pops one word and looks at nothing but that word. -/
theorem returned_of_returnFrom {m m' : Machine} {routine : Routine}
    (h : m.returnFrom routine = .ok m') : Returned m m' (·.returnFrom routine) := by
  by_cases hmark : m.memory.readWord m.sp = returnMark
  · simp only [returnFrom, pop, hmark, if_true] at h
    cases h
    refine ⟨rfl, rfl, fun sp memory hret => ?_⟩
    simp only [returnFrom, pop, hret, hmark, if_true]
  · simp only [returnFrom, pop, hmark, if_false] at h
    cases h

/-- A routine that returns does so wherever the stack is, by induction on its steps. Its
instructions work on registers, so only the return at its end looks at the stack. -/
theorem returned_of_runRoutine {m m' : Machine} {routine : Routine} {steps pos : Nat}
    (h : runRoutine routine steps pos m = .ok m') :
    Returned m m' (runRoutine routine steps pos) := by
  induction steps generalizing pos m with
  | zero => cases h
  | succ steps ih =>
    rw [runRoutine] at h
    cases hline : routine.body[pos]? with
    | none => simp [hline] at h
    | some line =>
      have hmem : line ∈ routine.body := List.mem_of_getElem? hline
      simp only [hline] at h
      cases haction : line.action with
      | ret =>
        simp only [haction] at h
        obtain ⟨hsp, haddresses, hagain⟩ := returned_of_returnFrom h
        refine ⟨hsp, haddresses, fun sp memory hret => ?_⟩
        simpa only [runRoutine, hline, haction] using hagain sp memory hret
      | retZero =>
        simp only [haction] at h
        split at h
        next hzero =>
          obtain ⟨hsp, haddresses, hagain⟩ := returned_of_returnFrom h
          refine ⟨hsp, haddresses, fun sp memory hret => ?_⟩
          simpa only [runRoutine, hline, haction, hzero, if_true] using hagain sp memory hret
        next hzero =>
          obtain ⟨hsp, haddresses, hagain⟩ := ih h
          refine ⟨hsp, haddresses, fun sp memory hret => ?_⟩
          simp only [runRoutine, hline, haction]
          rw [if_neg hzero]
          exact hagain sp memory hret
      | goto label =>
        simp only [haction] at h
        cases htarget : routine.body.findIdx? (·.label = some label) with
        | none => simp [htarget] at h
        | some target =>
          simp only [htarget] at h
          obtain ⟨hsp, haddresses, hagain⟩ := ih h
          refine ⟨hsp, haddresses, fun sp memory hret => ?_⟩
          simpa only [runRoutine, hline, haction, htarget] using hagain sp memory hret
      | subtractBorrow src =>
        simp only [haction] at h
        have hsrc := ne_m_of_mem_body hmem haction
        obtain ⟨hsp, haddresses, hagain⟩ := ih h
        refine ⟨hsp, haddresses, fun sp memory hret => ?_⟩
        have hget : { m with sp, memory }.get src = m.get src := by
          cases src <;> first | contradiction | rfl
        simp only [runRoutine, hline, haction, hget]
        exact hagain sp memory hret
      | instr i =>
        obtain ⟨hbarrier, hreads, hwrites, hpair, hstack⟩ := register_only_of_mem_body hmem haction
        simp only [haction] at h
        cases hexec : m.execute i with
        | error fault => simp [hexec] at h
        | ok m₁ =>
          simp only [hexec] at h
          -- An instruction on registers leaves the return address in place.
          have hstores : m.stores i = [] := stores_eq_nil hwrites hbarrier
          have hchange : i.spChange = 0 := by cases i <;> first | rfl | cases hstack
          have hsp₁ : m₁.sp = m.sp := by rw [execute_sp hexec hpair, hchange]; simp
          have hmemory₁ : m₁.memory = m.memory := by
            rw [execute_memory hexec hbarrier, hstores]
            rfl
          obtain ⟨hsp, haddresses, hagain⟩ := ih h
          refine ⟨hsp₁ ▸ hsp, haddresses.trans (execute_addresses hexec), fun sp memory hret => ?_⟩
          have hloads : ∀ a ∈ m.loads i, memory.read a = m.memory.read a := by
            rw [loads_eq_nil hreads]
            nofun
          have hexec' := execute_withSp (execute_withMemory hexec hbarrier hloads) hbarrier hpair
            hstack sp
          rw [hstores] at hexec'
          simp only [runRoutine, hline, haction, hexec']
          exact hagain sp memory (by rw [hsp₁, hmemory₁, hret])

/-! ## All instructions -/

/-- A call pushes its return address, changes registers and flags, and pops it again, wherever the
stack is. -/
theorem call_withStack {m m' : Machine} {routine : Routine} (h : m.call routine = .ok m')
    (sp : Word) (memory : Memory) :
    { m with sp, memory }.call routine =
      .ok { m' with sp, memory := memory.writeWord (sp - 2) returnMark } := by
  have hret := (returned_of_runRoutine h).withStack (sp - 2) (memory.writeWord (sp - 2) returnMark)
    (by simp only [push, Memory.readWord_writeWord_self])
  rwa [BitVec.sub_add_cancel] at hret

theorem call_sp {m m' : Machine} {routine : Routine} (h : m.call routine = .ok m') :
    m'.sp = m.sp := by
  rw [(returned_of_runRoutine h).sp]
  exact BitVec.sub_add_cancel m.sp 2

/-- With other memory contents a call does the same: it leaves the same mark below the stack
pointer. -/
theorem call_withMemory {m m' : Machine} {routine : Routine} (h : m.call routine = .ok m')
    (memory : Memory) :
    { m with memory }.call routine =
      .ok { m' with memory := memory.writeAll (m.stores (.call routine)) } := by
  refine (call_withStack h m.sp memory).trans ?_
  rw [call_sp h]
  rfl

theorem isControl_of_not_barrier {i : Instr} (h : i.isBarrier = false) : i.isControl = false := by
  cases i <;> first | rfl | cases h

theorem step_eq_execute {m : Machine} {i : Instr} (h : i.isBarrier = false) :
    m.step i = m.execute i := by
  cases i <;> first | rfl | cases h

/-- Other memory contents do not matter to an instruction that does not read them. -/
theorem step_withMemory {m m' : Machine} {i : Instr} {memory : Memory} (h : m.step i = .ok m')
    (hcontrol : i.isControl = false)
    (hloads : ∀ a ∈ m.loads i, memory.read a = m.memory.read a) :
    { m with memory }.step i = .ok { m' with memory := memory.writeAll (m.stores i) } := by
  cases i with
  | call routine => exact call_withMemory h memory
  | jump _ _ | hlt => cases hcontrol
  | _ =>
    rw [step_eq_execute rfl] at h ⊢
    exact execute_withMemory h rfl hloads

/-- An instruction writes the bytes of `stores`, and no other. -/
theorem step_memory {m m' : Machine} {i : Instr} (h : m.step i = .ok m')
    (hcontrol : i.isControl = false) : m'.memory = m.memory.writeAll (m.stores i) := by
  have hself : m.step i = .ok { m' with memory := m.memory.writeAll (m.stores i) } :=
    step_withMemory h hcontrol fun _ _ => rfl
  exact congrArg Machine.memory (Except.ok.inj (h.symm.trans hself))

theorem step_sp {m m' : Machine} {i : Instr} (h : m.step i = .ok m')
    (hpair : i.pair? ≠ some .sp) : m'.sp = m.sp + i.spChange := by
  cases i with
  | call routine => rw [call_sp h]; simp [Instr.spChange]
  | _ => exact execute_sp (by simpa only [step] using h) hpair

theorem step_addresses {m m' : Machine} {i : Instr} (h : m.step i = .ok m') :
    m'.addresses = m.addresses := by
  cases i with
  | call routine => exact (returned_of_runRoutine h).addresses
  | _ => exact execute_addresses (by simpa only [step] using h)

end Machine

end Accumulator
