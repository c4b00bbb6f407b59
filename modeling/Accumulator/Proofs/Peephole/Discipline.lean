import Accumulator.Peephole.Table
import Accumulator.Proofs.Peephole.Dead

/-!
# The discipline of optimizable runs

The peephole pass reasons about symbols and about the stack without looking at addresses. That is
right for runs that keep to a discipline: variables do not overlap, and only `PUSH`, `POP`, `XTHL`
and `CALL` touch the stack. `Obeys` states it for one instruction that is executed.

Under it three kinds of difference between two machines have no effect on what code does:

* the contents of a register that is dead (`exec_set_of_isDead`),
* bytes of a variable that are overwritten before they are read (`exec_of_overwritten`),
* bytes below the stack pointer (`exec_of_stale`).
-/

namespace Accumulator

namespace Machine

/-- The addresses an instruction writes. -/
def storeCells (m : Machine) (i : Instr) : List Word :=
  (m.stores i).map Prod.fst

/-- The addresses an instruction reads or writes. -/
def touches (m : Machine) (i : Instr) : List Word :=
  m.loads i ++ m.storeCells i

/-- The stack pointer wraps around: a push at the first address, or a pop at the last word. -/
def wraps (m : Machine) : Instr → Bool
  | .push _ => m.sp = 0
  | .pop _ => m.sp = 0xFFFE
  | _ => false

/-- The addresses that belong to the stack, and those that are stored to by the name of a
symbol. -/
structure Region where
  stack : Word → Prop
  convex : ∀ {x y z : Word}, stack x → stack z → x ≤ y → y ≤ z → stack y
  owned : String → Word → Prop

/-- An instruction keeps to the discipline on the machine that it meets. -/
structure Obeys (region : Region) (m : Machine) (i : Instr) : Prop where
  pair : ∀ p, i.pair? = some p → p.isGeneral = true
  sp : region.stack m.sp
  even : m.sp.toNat % 2 = 0
  noWrap : m.wraps i = false
  /-- Data lies outside the stack. -/
  outside : i.usesStack = false → ∀ a ∈ m.touches i, ¬region.stack a
  /-- What is loaded by one name was not stored by another. -/
  apart : ∀ s, Peephole.targetSymbol? i = some s → ∀ t, t ≠ s → ∀ a ∈ m.loads i, ¬region.owned t a
  owns : ∀ s, Peephole.targetSymbol? i = some s → ∀ a ∈ m.storeCells i, region.owned s a

variable {region : Region} {m m' : Machine} {i : Instr}

theorem Obeys.pair_ne_sp (h : Obeys region m i) : i.pair? ≠ some .sp := by
  intro hp
  cases h.pair .sp hp

/-- What an instruction that leaves the stack alone and names no symbol has to obey. -/
theorem obeys_of_outside (hsp : region.stack m.sp) (heven : m.sp.toNat % 2 = 0)
    (hpair : ∀ p, i.pair? = some p → p.isGeneral = true) (hstack : i.usesStack = false)
    (hsymbol : Peephole.targetSymbol? i = none)
    (hout : ∀ a ∈ m.touches i, ¬region.stack a) : Obeys region m i where
  pair := hpair
  sp := hsp
  even := heven
  noWrap := by cases i <;> first | rfl | cases hstack
  outside := fun _ => hout
  apart := by simp [hsymbol]
  owns := by simp [hsymbol]

/-- Whether the stack pointer wraps around does not depend on the registers. -/
theorem wraps_set (m : Machine) (r : Reg) (x : Byte) (i : Instr) :
    (m.set r x).wraps i = m.wraps i := by
  cases i <;> simp only [wraps, sp_set]

/-- A register that is not read has no part in the discipline. -/
theorem Obeys.set {r : Reg} (h : Obeys region m i) (x : Byte) (hr : r ≠ .m)
    (hreads : i.reads r = false) : Obeys region (m.set r x) i := by
  have hloads := loads_set (m := m) x hr hreads
  have hstores : (m.set r x).storeCells i = m.storeCells i := by
    rw [storeCells, stores_set x hr hreads, storeCells]
  refine ⟨h.pair, ?_, ?_, ?_, ?_, ?_, ?_⟩
  · rw [sp_set]
    exact h.sp
  · rw [sp_set]
    exact h.even
  · rw [wraps_set]
    exact h.noWrap
  · rw [touches, hloads, hstores]
    exact h.outside
  · rw [hloads]
    exact h.apart
  · rw [hstores]
    exact h.owns

/-- Which bytes are read does not depend on what they hold. -/
theorem loads_withMemory (m : Machine) (memory : Memory) (i : Instr) :
    { m with memory }.loads i = m.loads i := by
  cases i with
  | mov _ r | alu _ r | inr r | dcr r => cases r <;> rfl
  | ldax p => simp only [loads, pair_withMemory]
  | _ => rfl

/-- Nor does it depend on that which bytes are written. -/
theorem storeCells_withMemory (m : Machine) (memory : Memory) (i : Instr) :
    { m with memory }.storeCells i = m.storeCells i := by
  cases i with
  | mov r _ | mvi r _ | inr r | dcr r => cases r <;> rfl
  | stax p | push p => simp only [storeCells, stores, wordStores, pair_withMemory, List.map]
  | _ => rfl

/-- Nor does it matter where the stack is, to an instruction that does not use it. -/
theorem touches_withSp (hstack : i.usesStack = false) (hpair : i.pair? ≠ some .sp) (sp : Word) :
    { m with sp }.touches i = m.touches i := by
  have hne {p : Pair} (hp : some p ≠ some Pair.sp) : p ≠ .sp := fun h => hp (h ▸ rfl)
  cases i with
  | mov dst src => cases dst <;> cases src <;> rfl
  | mvi r _ | inr r | dcr r | alu _ r => cases r <;> rfl
  | ldax p | stax p =>
    simp only [touches, loads, storeCells, stores, pair_withSp m sp (hne hpair)]
  | xthl | push _ | pop _ | call _ => cases hstack
  | _ => rfl

theorem storeCells_sta (m : Machine) (address : Imm) :
    m.storeCells (.sta address) = (m.immAddress? address).toList := by
  rw [storeCells, stores, List.map_map]
  exact List.map_id _

theorem storeCells_shld (m : Machine) (address : Imm) :
    m.storeCells (.shld address) = (m.immAddress? address).toList.flatMap wordCells := by
  rw [storeCells, stores, List.map_flatMap]
  rfl

/-- Whether an instruction keeps to the discipline has nothing to do with the contents of memory. -/
theorem Obeys.withMemory (h : Obeys region m i) (memory : Memory) :
    Obeys region { m with memory } i := by
  have hloads := loads_withMemory m memory i
  have hstores := storeCells_withMemory m memory i
  refine ⟨h.pair, h.sp, h.even, ?_, ?_, ?_, ?_⟩
  · have := h.noWrap
    cases i <;> exact this
  · rw [touches, hloads, hstores]
    exact h.outside
  · rw [hloads]
    exact h.apart
  · rw [hstores]
    exact h.owns

/-! ## Dead registers -/

section Exec

variable {code rest : List Instr} {n : Nat}

/-- What a dead register holds has no effect on memory and on the stack pointer. By induction on the
run, until something overwrites the register or the code ends. -/
theorem exec_set_of_isDead {r : Reg} (h : Exec (Obeys region) code m n m') (x : Byte)
    (hr : r ≠ .m) (hdead : Peephole.isDead r code = true) :
    ∃ m'', Exec (Obeys region) code (m.set r x) n m'' ∧ m''.memory = m'.memory ∧
      m''.sp = m'.sp := by
  induction h with
  | done m => exact ⟨_, .done _, memory_set hr, sp_set m r x⟩
  | halt _ | skip _ _ _ | pass _ _ _ => cases hdead
  | @step m m₁ m' n i rest hp hcontrol hstep hexec ih =>
    obtain ⟨hbarrier, hreads, hafter⟩ := Peephole.isDead_cons_iff.mp hdead
    have hset : (m.set r x).step i = .ok (if i.writes r then m₁ else m₁.set r x) := by
      rw [step_set x hr hbarrier hreads, hstep]
      rfl
    cases hwrites : i.writes r with
    | true =>
      rw [if_pos hwrites] at hset
      exact ⟨m', .step (hp.set x hr hreads) hcontrol hset hexec, rfl, rfl⟩
    | false =>
      rw [if_neg (Bool.eq_false_iff.mp hwrites)] at hset
      have hrest : Peephole.isDead r rest = true := by simpa [hwrites] using hafter
      obtain ⟨m'', hexec', hmemory, hsp⟩ := ih hrest
      exact ⟨m'', .step (hp.set x hr hreads) hcontrol hset hexec', hmemory, hsp⟩

/-! ## Overwritten bytes -/

/-- Bytes that are not read before an instruction overwrites them have no effect at all. By
induction on the instructions in between, which may write those bytes but do not read them. -/
theorem exec_of_overwritten {mid : List Instr} {j : Instr} {D : Word → Prop} {memory : Memory}
    (h : Exec (Obeys region) (mid ++ j :: rest) m n m')
    (hmid : ∀ k ∈ mid, k.isBarrier = false ∧
      ∀ m₁ : Machine, Obeys region m₁ k → ∀ a ∈ m₁.loads k, ¬D a)
    (hj : j.isControl = false) (hloads : j.readsMemory = false)
    (hover : ∀ m₁ : Machine, m₁.addresses = m.addresses → ∀ a, D a → a ∈ m₁.storeCells j)
    (hagree : ∀ a, ¬D a → memory.read a = m.memory.read a) :
    Exec (Obeys region) (mid ++ j :: rest) { m with memory } n m' := by
  induction mid generalizing m memory n with
  | nil =>
    obtain ⟨n, m₁, rfl, hp, hstep, hexec⟩ := h.of_not_control hj
    have hread : ∀ a ∈ m.loads j, memory.read a = m.memory.read a := by
      rw [loads_eq_nil hloads]
      nofun
    -- Once all bytes in question are overwritten, the two memories are equal.
    have hsame : memory.writeAll (m.stores j) = m₁.memory := by
      rw [step_memory hstep hj]
      refine Memory.ext_of_read fun a => Memory.read_writeAll_congr ?_
      by_cases ha : D a
      · exact .inl (hover m rfl a ha)
      · exact .inr (hagree a ha)
    have hstep' := step_withMemory hstep hj hread
    rw [hsame] at hstep'
    exact .step (hp.withMemory memory) hj hstep' hexec
  | cons k mid ih =>
    obtain ⟨hbarrier, hk⟩ := hmid k List.mem_cons_self
    have hcontrol := isControl_of_not_barrier hbarrier
    obtain ⟨n, m₁, rfl, hp, hstep, hexec⟩ := h.of_not_control hcontrol
    have hstep' := step_withMemory hstep hcontrol fun a ha => hagree a (hk m hp a ha)
    refine .step (hp.withMemory memory) hcontrol hstep' (ih hexec ?_ ?_ ?_)
    · exact fun i hi => hmid i (List.mem_cons_of_mem _ hi)
    · exact fun m₂ hm₂ => hover m₂ (hm₂.trans (step_addresses hstep))
    · intro a ha
      rw [step_memory hstep hcontrol]
      exact Memory.read_writeAll_congr (.inr (hagree a ha))

/-! ## Below the stack pointer -/

/-- A memory that differs from the machine's in the stack below the stack pointer only. -/
def Stale (region : Region) (m : Machine) (memory : Memory) : Prop :=
  ∀ a, memory.read a = m.memory.read a ∨ region.stack a ∧ a < m.sp

/-- What an instruction reads is not below the stack pointer, so it is the same in both memories. A
pop starts at the pointer, and other instructions keep away from the stack. -/
theorem Stale.loads {memory : Memory} (h : Stale region m memory) (hp : Obeys region m i) :
    ∀ a ∈ m.loads i, memory.read a = m.memory.read a := by
  intro a ha
  rcases h a with hread | ⟨hstack, hlt⟩
  · exact hread
  cases hstackInstr : i.usesStack with
  | false =>
    have hout := hp.outside hstackInstr a (List.mem_append_left _ ha)
    exact absurd hstack hout
  | true =>
    have heven := hp.even
    cases i with
    | push _ | call _ => cases ha
    | pop _ | xthl =>
      simp only [Machine.loads, wordCells, List.mem_cons, List.not_mem_nil, or_false] at ha
      rcases ha with rfl | rfl
      · exact absurd hlt (BitVec.lt_irrefl _)
      · bv_omega
    | _ => cases hstackInstr

/-- After an instruction only bytes below the stack pointer differ. A push overwrites the two bytes
that are no longer below the pointer, and a pop leaves more of them below. -/
theorem Stale.step {memory : Memory} (h : Stale region m memory) (hp : Obeys region m i)
    (hcontrol : i.isControl = false) (hstep : m.step i = .ok m') :
    Stale region m' (memory.writeAll (m.stores i)) := by
  intro a
  rw [step_memory hstep hcontrol, step_sp hstep hp.pair_ne_sp]
  by_cases hstored : a ∈ m.storeCells i
  · exact .inl (Memory.read_writeAll_congr (.inl hstored))
  rcases h a with hread | ⟨hstack, hlt⟩
  · exact .inl (Memory.read_writeAll_congr (.inr hread))
  refine .inr ⟨hstack, ?_⟩
  have heven := hp.even
  have hwrap := hp.noWrap
  cases i with
  | push p =>
    simp only [storeCells, stores, wordStores, List.map, List.mem_cons, List.not_mem_nil,
      or_false, not_or] at hstored
    simp only [wraps, decide_eq_false_iff_not] at hwrap
    simp only [Instr.spChange]
    bv_omega
  | pop p =>
    simp only [wraps, decide_eq_false_iff_not] at hwrap
    simp only [Instr.spChange]
    bv_omega
  | _ => simpa [Instr.spChange] using hlt

/-- Stale bytes have no effect on anything else: the same code runs from the other memory as well,
step by step, and ends with other stale bytes at most. -/
theorem exec_of_stale {memory : Memory} (h : Exec (Obeys region) code m n m')
    (hstale : Stale region m memory) :
    ∃ memory', Exec (Obeys region) code { m with memory } n { m' with memory := memory' } ∧
      Stale region m' memory' := by
  induction h generalizing memory with
  | done m => exact ⟨memory, .done _, hstale⟩
  | halt hp => exact ⟨memory, .halt (hp.withMemory memory), hstale⟩
  | skip hp hcond _ ih =>
    obtain ⟨memory', hexec, hstale'⟩ := ih hstale
    exact ⟨memory', .skip (hp.withMemory memory) hcond hexec, hstale'⟩
  | pass hp hcond _ ih =>
    obtain ⟨memory', hexec, hstale'⟩ := ih hstale
    exact ⟨memory', .pass (hp.withMemory memory) hcond hexec, hstale'⟩
  | step hp hcontrol hstep _ ih =>
    obtain ⟨memory', hexec, hstale'⟩ := ih (hstale.step hp hcontrol hstep)
    have hstep' := step_withMemory hstep hcontrol (hstale.loads hp)
    exact ⟨memory', .step (hp.withMemory memory) hcontrol hstep' hexec, hstale'⟩

end Exec

end Machine

end Accumulator
