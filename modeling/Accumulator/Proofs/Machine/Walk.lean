import Accumulator.Proofs.Machine.Routine
import Accumulator.Proofs.Peephole.Refine
import Accumulator.Triple.Fold

/-!
# Walking through code

Selected code is put together from short pieces: one loads an operand, one adds, one turns a flag
into a number. `Walks` says what a piece does, and pieces can be appended.
Most pieces change registers and nothing else that matters; `Computes` says of such a piece what
the registers are afterwards, and leaves the flags open.

Both carry a set of addresses along, the data: what a piece reads and writes without the help of the
stack lies in it, and there memory is as it was. A call puts its mark below the stack pointer, so
with calls these two bytes are no data.
-/

namespace Accumulator

/-- Instructions that look at registers and change registers only. -/
def Instr.isLocal (i : Instr) : Bool :=
  !i.isBarrier && !i.readsMemory && !i.writesMemory && decide (i.pair? ≠ some .sp)

/-- Instructions that store to no variable by name and leave the stack alone; the quiet ones make no
calls either. -/
def Instr.isTame (quiet : Bool) : Instr → Bool
  | push _ | pop _ | xthl | sta _ | shld _ => false
  | call _ => !quiet
  | i => i.pair?.all Pair.isGeneral

namespace Machine

variable {data : Word → Prop} {code front rest : List Instr} {m m₁ m' : Machine} {i : Instr}

/-- What the instruction reads or writes, other than on the stack, is data. -/
def Within (data : Word → Prop) (m : Machine) (i : Instr) : Prop :=
  i.usesStack = false → ∀ a ∈ m.touches i, data a

theorem within_of_registers (hreads : i.readsMemory = false) (hwrites : i.writesMemory = false)
    (hbarrier : i.isBarrier = false) : Within data m i := by
  intro _ a ha
  simp [touches, loads_eq_nil hreads, storeCells, stores_eq_nil hwrites hbarrier] at ha

/-- The code takes one machine to the other. Jumps skip the clearing of the accumulator, and what is
touched is data. -/
inductive Walks (data : Word → Prop) : List Instr → Machine → Machine → Prop where
  | nil (m : Machine) : Walks data [] m m
  | cons {i : Instr} {rest : List Instr} {m m₁ m' : Machine} (hcontrol : i.isControl = false)
      (hdata : Within data m i) (hstep : m.step i = .ok m₁) (h : Walks data rest m₁ m') :
      Walks data (i :: rest) m m'
  | skip {cond : Cond} {rest : List Instr} {m m' : Machine} (hcond : m.holds cond = true)
      (h : Walks data rest m m') : Walks data (.jump cond 4 :: .alu .xor .a :: rest) m m'
  | pass {cond : Cond} {rest : List Instr} {m m' : Machine} (hcond : m.holds cond = false)
      (h : Walks data (.alu .xor .a :: rest) m m') :
      Walks data (.jump cond 4 :: .alu .xor .a :: rest) m m'

namespace Walks

/-- One instruction that is no jump. -/
theorem single (hcontrol : i.isControl = false) (hdata : Within data m i)
    (hstep : m.step i = .ok m') : Walks data [i] m m' :=
  .cons hcontrol hdata hstep (.nil m')

/-- A walk through one part of the code and then the other. -/
theorem append (hfront : Walks data front m m₁) (hrest : Walks data rest m₁ m') :
    Walks data (front ++ rest) m m' := by
  induction hfront with
  | nil _ => exact hrest
  | cons hcontrol hdata hstep _ ih => exact .cons hcontrol hdata hstep (ih hrest)
  | skip hcond _ ih => exact .skip hcond (ih hrest)
  | pass hcond _ ih => exact .pass hcond (ih hrest)

theorem mono {data' : Word → Prop} (h : Walks data code m m') (hdata : ∀ a, data a → data' a) :
    Walks data' code m m' := by
  induction h with
  | nil m => exact .nil m
  | cons hcontrol hwithin hstep _ ih =>
    exact .cons hcontrol (fun hstack a ha => hdata a (hwithin hstack a ha)) hstep ih
  | skip hcond _ ih => exact .skip hcond ih
  | pass hcond _ ih => exact .pass hcond ih

/-- A jump does not touch memory. -/
theorem within_jump (cond : Cond) (offset : Int) (m : Machine) :
    Within data m (.jump cond offset) :=
  fun _ _ ha => absurd ha List.not_mem_nil

/-- A walk is a run that stays within the data, of no more steps than there are instructions. -/
theorem exec (h : Walks data code m m') : ∃ n ≤ code.length, Exec (Within data) code m n m' := by
  induction h with
  | nil m => exact ⟨0, Nat.le_refl 0, .done m⟩
  | cons hcontrol hdata hstep _ ih =>
    obtain ⟨n, hn, hexec⟩ := ih
    exact ⟨n + 1, Nat.succ_le_succ hn, .step hdata hcontrol hstep hexec⟩
  | @skip cond rest m m' hcond _ ih =>
    obtain ⟨n, hn, hexec⟩ := ih
    obtain ⟨n', hn', hlanding⟩ := Peephole.Refines.exec_landing hexec
    refine ⟨n' + 1, ?_, .skip (within_jump cond 4 m) hcond hlanding⟩
    simp only [List.length_cons]
    omega
  | @pass cond rest m m' hcond _ ih =>
    obtain ⟨n, hn, hexec⟩ := ih
    exact ⟨n + 1, Nat.succ_le_succ hn, .pass (within_jump cond 4 m) hcond hexec⟩

end Walks

/-! ## Code without jumps -/

/-- An instruction that is no jump takes one machine to the other, and touches data only. -/
structure Steps (data : Word → Prop) (i : Instr) (m m' : Machine) : Prop where
  control : i.isControl = false
  within : Within data m i
  step : m.step i = .ok m'

namespace Steps

variable {data' : Word → Prop} {r q : Reg}

theorem mono (h : Steps data i m m') (hdata : ∀ a, data a → data' a) : Steps data' i m m' :=
  ⟨h.control, fun hstack a ha => hdata a (h.within hstack a ha), h.step⟩

theorem of_registers (hreads : i.readsMemory = false) (hwrites : i.writesMemory = false)
    (hbarrier : i.isBarrier = false) (hstep : m.step i = .ok m') : Steps data i m m' :=
  ⟨isControl_of_not_barrier hbarrier, within_of_registers hreads hwrites hbarrier, hstep⟩

theorem mov (hr : r ≠ .m) (hq : q ≠ .m) : Steps data (.mov r q) m (m.set r (m.get q)) := by
  refine of_registers ?_ ?_ rfl rfl
  · cases q <;> first | rfl | exact absurd rfl hq
  · cases r <;> first | rfl | exact absurd rfl hr

theorem mvi (hr : r ≠ .m) (x : Byte) : Steps data (.mvi r x) m (m.set r x) := by
  refine of_registers rfl ?_ rfl rfl
  cases r <;> first | rfl | exact absurd rfl hr

/-- The stack is not data. -/
theorem of_stack (hi : i.usesStack = true) (hstep : m.step i = .ok m') : Steps data i m m' := by
  refine ⟨?_, fun hnot => ?_, hstep⟩
  · cases i <;> first | rfl | cases hi
  · rw [hi] at hnot
    cases hnot

/-- A load of one byte. -/
theorem of_load {a : Word} (hcontrol : i.isControl = false) (hloads : m.loads i = [a])
    (hstores : m.stores i = []) (ha : data a) (hstep : m.step i = .ok m') : Steps data i m m' := by
  refine ⟨hcontrol, fun _ b hb => ?_, hstep⟩
  simp only [touches, hloads, storeCells, hstores, List.map_nil, List.append_nil,
    List.mem_singleton] at hb
  exact hb ▸ ha

end Steps

/-- Code without jumps takes one machine to the other, and touches data only. -/
inductive Strides (data : Word → Prop) : List Instr → Machine → Machine → Prop where
  | nil (m : Machine) : Strides data [] m m
  | cons {i : Instr} {rest : List Instr} {m m₁ m' : Machine} (h : Steps data i m m₁)
      (hrest : Strides data rest m₁ m') : Strides data (i :: rest) m m'

namespace Strides

variable {data' : Word → Prop}

theorem single (h : Steps data i m m') : Strides data [i] m m' :=
  .cons h (.nil m')

theorem append (hfront : Strides data front m m₁) (hrest : Strides data rest m₁ m') :
    Strides data (front ++ rest) m m' := by
  induction hfront with
  | nil _ => exact hrest
  | cons h _ ih => exact .cons h (ih hrest)

theorem mono (h : Strides data code m m') (hdata : ∀ a, data a → data' a) :
    Strides data' code m m' := by
  induction h with
  | nil m => exact .nil m
  | cons h _ ih => exact .cons (h.mono hdata) ih

/-- Straight code can be run step by step, with no regard for jumps. -/
theorem foldlM_eq (h : Strides data code m m') : code.foldlM Machine.step m = .ok m' := by
  induction h with
  | nil m => rfl
  | cons h _ ih =>
    rw [List.foldlM_cons, h.step]
    exact ih

theorem walks (h : Strides data code m m') : Walks data code m m' := by
  induction h with
  | nil m => exact .nil m
  | cons h _ ih => exact .cons h.control h.within h.step ih

end Strides

/-! ## Code that changes registers -/

/-- The second machine has the registers `rs` and is otherwise like the first one, but for the flags
and for memory that is no data. -/
structure Changes (data : Word → Prop) (rs : Registers Byte) (m m' : Machine) : Prop where
  registers : m'.registers = rs
  sp : m'.sp = m.sp
  addresses : m'.addresses = m.addresses
  memory : ∀ a, data a → m'.memory.read a = m.memory.read a

/-- What two parts of the code change, they change one after the other. -/
theorem Changes.trans {rs rs' : Registers Byte} (h : Changes data rs m m₁)
    (h' : Changes data rs' m₁ m') : Changes data rs' m m' where
  registers := h'.registers
  sp := h'.sp.trans h.sp
  addresses := h'.addresses.trans h.addresses
  memory a ha := (h'.memory a ha).trans (h.memory a ha)

/-- An instruction that is executed in line, writes no memory and leaves the stack alone. -/
theorem Changes.of_execute (hbarrier : i.isBarrier = false) (hwrites : i.writesMemory = false)
    (hsp : i.pair? ≠ some .sp) (hchange : i.spChange = 0) (hstep : m.execute i = .ok m') :
    Changes data m'.registers m m' := by
  refine ⟨rfl, ?_, execute_addresses hstep, fun a _ => ?_⟩
  · rw [execute_sp hstep hsp, hchange]
    exact BitVec.add_zero _
  · rw [execute_memory hstep hbarrier, stores_eq_nil hwrites hbarrier]
    rfl

/-- The two bytes below the stack pointer are no data. -/
def Unmarked (data : Word → Prop) (m : Machine) : Prop :=
  ∀ a, data a → a ≠ m.sp - 2 ∧ a ≠ m.sp - 1

/-- Where a call would leave its mark depends on the stack pointer only. -/
theorem Unmarked.of_sp (h : Unmarked data m) (hsp : m'.sp = m.sp) : Unmarked data m' := by
  intro a ha
  rw [hsp]
  exact h a ha

/-- A call leaves its mark below the stack pointer. -/
theorem Changes.of_mark {rs : Registers Byte} {zero carry : Bool} (h : Unmarked data m) :
    Changes data rs m { m with
      registers := rs, zero, carry, memory := m.memory.writeWord (m.sp - 2) returnMark } where
  registers := rfl
  sp := rfl
  addresses := rfl
  memory a ha := by
    obtain ⟨hlow, hhigh⟩ := h a ha
    exact Memory.read_writeWord_of_ne hlow (by bv_omega)

/-- The code changes the registers to `rs`. -/
def Computes (data : Word → Prop) (code : List Instr) (m : Machine) (rs : Registers Byte) : Prop :=
  ∃ m', Walks data code m m' ∧ Changes data rs m m'

namespace Computes

variable {rs rs' : Registers Byte}

theorem nil (data : Word → Prop) (m : Machine) : Computes data [] m m.registers :=
  ⟨m, .nil m, rfl, rfl, rfl, fun _ _ => rfl⟩

/-- Code computes in registers if its parts do, the second with the registers that the first
leaves. -/
theorem append (hfront : Computes data front m rs)
    (hrest : ∀ m₁, Changes data rs m m₁ → Computes data rest m₁ rs') :
    Computes data (front ++ rest) m rs' := by
  obtain ⟨m₁, hwalks₁, hchanges₁⟩ := hfront
  obtain ⟨m', hwalks, hchanges⟩ := hrest m₁ hchanges₁
  exact ⟨m', hwalks₁.append hwalks, hchanges₁.trans hchanges⟩

/-- Code behind code that is known step by step. -/
theorem append_walks (hfront : Walks data front m m₁) (hchanges : Changes data m₁.registers m m₁)
    (hrest : Computes data rest m₁ rs) : Computes data (front ++ rest) m rs := by
  obtain ⟨m', hwalks, hchanges'⟩ := hrest
  exact ⟨m', hfront.append hwalks, hchanges.trans hchanges'⟩

/-- One instruction that may read memory. -/
theorem of_execute (hbarrier : i.isBarrier = false) (hwrites : i.writesMemory = false)
    (hsp : i.pair? ≠ some .sp) (hchange : i.spChange = 0) (hdata : Within data m i)
    (hstep : m.execute i = .ok m') (hrs : m'.registers = rs) : Computes data [i] m rs :=
  ⟨m', .single (isControl_of_not_barrier hbarrier) hdata ((step_eq_execute hbarrier).trans hstep),
    hrs ▸ .of_execute hbarrier hwrites hsp hchange hstep⟩

/-- Code that looks at registers only computes what its instructions do one after the other, on any
data. Memory and stack pointer have no part in it. -/
theorem of_local (hcode : code.all Instr.isLocal = true)
    (hrun : code.foldlM Machine.execute m = .ok m') (hrs : m'.registers = rs) :
    Computes data code m rs := by
  induction code generalizing m with
  | nil =>
    cases hrun
    exact hrs ▸ nil data _
  | cons i rest ih =>
    rw [List.all_cons, Bool.and_eq_true] at hcode
    obtain ⟨hi, hrest⟩ := hcode
    obtain ⟨m₁, hstep, hrun⟩ := exists_ok_of_bind hrun
    simp only [Instr.isLocal, Bool.and_eq_true, Bool.not_eq_true', decide_eq_true_eq] at hi
    obtain ⟨⟨⟨hbarrier, hreads⟩, hwrites⟩, hsp⟩ := hi
    have hchange : i.spChange = 0 := by
      cases i <;> first | rfl | contradiction
    have hwalks : Walks data [i] m m₁ :=
      .single (isControl_of_not_barrier hbarrier) (within_of_registers hreads hwrites hbarrier)
        ((step_eq_execute hbarrier).trans hstep)
    exact append_walks hwalks (.of_execute hbarrier hwrites hsp hchange hstep) (ih hrest hrun)

/-- A call that returns with other registers computes them; its mark is not among the data. -/
theorem of_call {routine : Routine} {zero carry : Bool} (hdata : Unmarked data m)
    (h : m.call routine = .ok { m with
      registers := rs, zero, carry, memory := m.memory.writeWord (m.sp - 2) returnMark }) :
    Computes data [.call routine] m rs :=
  ⟨_, .single rfl nofun h, .of_mark hdata⟩

/-- A flag becomes 1 or 0 in the accumulator: the jump skips the instruction that clears it. -/
theorem flag (cond : Cond) (m : Machine) :
    Computes data [.mvi .a 1, .jump cond 4, .alu .xor .a] m
      { m.registers with a := truth (m.holds cond) } := by
  have hmvi : Within data m (.mvi .a 1) := within_of_registers rfl rfl rfl
  cases hcond : m.holds cond with
  | true =>
    have hskip : (m.set .a 1).holds cond = true := by cases cond <;> exact hcond
    exact ⟨m.set .a 1, .cons rfl hmvi rfl (.skip hskip (.nil _)), rfl, rfl, rfl, fun _ _ => rfl⟩
  | false =>
    have hpass : (m.set .a 1).holds cond = false := by cases cond <;> exact hcond
    have hclear : Walks data [.alu .xor .a] (m.set .a 1) ((m.set .a 1).alu .xor 1) :=
      .single rfl (within_of_registers rfl rfl rfl) rfl
    refine ⟨_, .cons rfl hmvi rfl (.pass hpass hclear), ?_, rfl, rfl, fun _ _ => rfl⟩
    simp [alu, aluResult, set, Registers.set, truth]

/-- The same instruction over and over. -/
theorem replicate {g : Registers Byte → Registers Byte}
    (h : ∀ m, Computes data [i] m (g m.registers)) (n : Nat) (m : Machine) :
    Computes data (List.replicate n i) m (g^[n] m.registers) := by
  induction n generalizing m with
  | zero => exact nil data m
  | succ n ih =>
    rw [List.replicate_succ, ← List.singleton_append, Function.iterate_succ_apply]
    refine (h m).append fun m₁ hchanges => ?_
    rw [← hchanges.registers]
    exact ih m₁

end Computes

end Machine

end Accumulator
