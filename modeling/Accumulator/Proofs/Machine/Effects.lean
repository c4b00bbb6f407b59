import Accumulator.Instr.Effects
import Accumulator.Machine.Step
import Accumulator.Proofs.Machine.Memory

/-!
# The effect table is sound

The peephole pass knows instructions only through their effects: which registers are read and
written, and whether memory is. Here the table is tied to what the machine does.

* A register that is not written keeps its byte (`execute_register`), and memory that is not
  written stays as it is (`execute_memory`).
* A register that is not read does not matter: with other contents of it the instruction does the
  same, and the difference is gone if the register is written (`execute_set`).
* A memory byte that is not read does not matter either (`execute_withMemory`). The bytes an
  instruction reads and writes are spelled out by `loads` and `stores`.

Jumps, calls and halts are barriers, and the table says nothing of use about them.
-/

namespace Accumulator

/-- Pairs of two registers. -/
def Pair.isGeneral : Pair → Bool
  | b | d | h => true
  | sp | psw => false

theorem Pair.isGeneral_of_halves? {p : Pair} {high low : Reg} (h : p.halves? = some (high, low)) :
    p.isGeneral = true := by
  cases p <;> first | rfl | cases h

namespace Machine

/-! ## Operands -/

theorem get_of_ne {m : Machine} {r : Reg} (hr : r ≠ .m) : m.get r = m.registers.get r := by
  cases r <;> first | rfl | contradiction

theorem set_of_ne {m : Machine} {r : Reg} {x : Byte} (hr : r ≠ .m) :
    m.set r x = { m with registers := m.registers.set r x } := by
  cases r <;> first | rfl | contradiction

theorem set_get_self (m : Machine) {r : Reg} (hr : r ≠ .m) : m.set r (m.registers.get r) = m := by
  cases r <;> first | contradiction | rfl

theorem registers_get_set {m : Machine} {r : Reg} {x : Byte} (hr : r ≠ .m) :
    (m.set r x).registers.get r = x := by
  cases r <;> first | contradiction | rfl

theorem set_set_self {m : Machine} {r : Reg} {x y : Byte} (hr : r ≠ .m) :
    (m.set r x).set r y = m.set r y := by
  cases r <;> first | contradiction | rfl

theorem pair_of_halves? {m : Machine} {p : Pair} {high low : Reg}
    (h : p.halves? = some (high, low)) :
    m.pair p = m.registers.get high ++ m.registers.get low := by
  cases p <;> cases h <;> rfl

theorem setPair_pair {m : Machine} {p : Pair} (hp : p.isGeneral = true) :
    m.setPair p (m.pair p) = m := by
  cases p with
  | sp | psw => cases hp
  | b | d | h => simp only [setPair, pair, hl, high_of_append, low_of_append]

theorem pair_setPair {m : Machine} {p : Pair} {v : Word} (hp : p.isGeneral = true) :
    (m.setPair p v).pair p = v := by
  cases p with
  | sp | psw => cases hp
  | b | d | h => simp only [setPair, pair, hl, high_append_low]

theorem setPair_setPair {m : Machine} {p : Pair} {v w : Word} (hp : p.isGeneral = true) :
    (m.setPair p v).setPair p w = m.setPair p w := by
  cases p with
  | sp | psw => cases hp
  | b | d | h => rfl

theorem imm_of_addresses {m m₁ : Machine} (h : m₁.addresses = m.addresses) (a : Imm) :
    m₁.imm a = m.imm a := by
  cases a with
  | num _ => rfl
  | sym name offset => simp only [imm, addressOf?, h]

/-- A register is read as before if it is not the one that was set, and HL is not what leads to
it. -/
theorem get_set_of_not_source {m : Machine} {r q : Reg} {x : Byte} (hr : r ≠ .m)
    (h : r ∉ q.sourceReads) : (m.set r x).get q = m.get q := by
  cases r <;> cases q <;> first | contradiction | rfl

/-- Setting two registers: the first is overwritten, or the order does not matter. For the byte
behind HL, HL itself must stay. -/
theorem set_set_of_not_target {m : Machine} {r q : Reg} {x v : Byte} (hr : r ≠ .m)
    (h : r ∉ q.targetReads) :
    (m.set r x).set q v = if r ∈ q.targetWrites then m.set q v else (m.set q v).set r x := by
  cases r <;> cases q <;> first | contradiction | rfl

/-- A pair is not affected by a register outside of it. -/
theorem pair_set_of_not_mem {m : Machine} {r : Reg} {p : Pair} {x : Byte} (hr : r ≠ .m)
    (h : r ∉ p.registers) : (m.set r x).pair p = m.pair p := by
  cases r <;> cases p <;> first | contradiction | rfl

/-- Loading a pair after setting a register: the register is overwritten, or the order does not
matter. -/
theorem setPair_set {m : Machine} {r : Reg} {p : Pair} {x : Byte} {v : Word} (hr : r ≠ .m) :
    (m.set r x).setPair p v =
      if r ∈ p.registers then m.setPair p v else (m.setPair p v).set r x := by
  cases r <;> cases p <;> first | contradiction | rfl

theorem imm_set (m : Machine) (r : Reg) (x : Byte) (a : Imm) : (m.set r x).imm a = m.imm a := by
  cases r <;> rfl

theorem sp_set (m : Machine) (r : Reg) (x : Byte) : (m.set r x).sp = m.sp := by
  cases r <;> rfl

theorem memory_set {m : Machine} {r : Reg} {x : Byte} (hr : r ≠ .m) :
    (m.set r x).memory = m.memory := by
  cases r <;> first | contradiction | rfl

theorem registers_a_set {m : Machine} {r : Reg} {x : Byte} (ha : r ≠ .a) :
    (m.set r x).registers.a = m.registers.a := by
  cases r <;> first | contradiction | rfl

/-- An operation of the accumulator does not affect other registers, nor they it. -/
theorem alu_set {m : Machine} {op : AluOp} {r : Reg} {x v : Byte} (hr : r ≠ .m) (ha : r ≠ .a) :
    (m.set r x).alu op v = (m.alu op v).set r x := by
  cases r <;> cases op <;> first | contradiction | rfl

theorem setCounter_set {m : Machine} {r q : Reg} {x v : Byte} (hr : r ≠ .m)
    (h : r ∉ q.sourceReads) :
    (m.set r x).setCounter q v = (m.setCounter q v).set r x := by
  cases r <;> cases q <;> first | contradiction | rfl

/-- A store into memory and setting a register do not affect each other. -/
theorem store_set {m : Machine} {r : Reg} {x v : Byte} {a : Word} (hr : r ≠ .m) :
    (m.set r x).store a v = (m.store a v).set r x := by
  cases r <;> first | contradiction | rfl

/-! ## Registers

The effect table names physical registers only, so every statement here is about some `r ≠ .m`. -/

/-- Setting a register and then running an instruction that does not read it. If the instruction
writes the register, nothing is left of the change; otherwise the change comes out again. The table
of effects decides, and every instruction is checked against it. -/
theorem execute_set {m : Machine} {i : Instr} {r : Reg} (x : Byte) (hr : r ≠ .m)
    (hbarrier : i.isBarrier = false) (hreads : i.reads r = false) :
    (m.set r x).execute i =
      (m.execute i).map fun m' => if i.writes r then m' else m'.set r x := by
  simp only [Instr.reads, List.contains_eq_mem, decide_eq_false_iff_not] at hreads
  simp only [Instr.writes, List.contains_eq_mem, decide_eq_true_eq]
  cases i with
  | mov dst src =>
    simp only [Instr.effects, List.mem_append, not_or] at hreads
    simp only [execute, get_set_of_not_source hr hreads.1, set_set_of_not_target hr hreads.2]
    rfl
  | mvi dst v =>
    simp only [execute, set_set_of_not_target (q := dst) hr hreads]
    rfl
  | lda a =>
    simp only [execute, imm_set, memory_set hr]
    cases m.imm a with
    | error _ => rfl
    | ok v => exact congrArg Except.ok (set_set_of_not_target (q := .a) hr List.not_mem_nil)
  | sta a =>
    simp only [Instr.effects, List.mem_singleton] at hreads
    simp only [execute, imm_set, registers_a_set hreads, store_set hr]
    cases m.imm a <;> rfl
  | ldax p =>
    simp only [execute, pair_set_of_not_mem (p := p) hr hreads, memory_set hr]
    exact congrArg Except.ok (set_set_of_not_target (q := .a) hr List.not_mem_nil)
  | stax p =>
    simp only [Instr.effects, List.mem_append, List.mem_singleton, not_or] at hreads
    simp only [execute, pair_set_of_not_mem hr hreads.1, registers_a_set hreads.2, store_set hr]
    rfl
  | alu op src =>
    simp only [Instr.effects, List.mem_append, List.mem_singleton, not_or] at hreads
    simp only [execute, get_set_of_not_source hr hreads.1, alu_set hr hreads.2]
    cases op <;> simp [Instr.effects, hreads.2, Except.map]
  | aluImm op v =>
    simp only [Instr.effects, List.mem_singleton] at hreads
    simp only [execute, alu_set hr hreads]
    cases op <;> simp [Instr.effects, hreads, Except.map]
  -- dcr q => | A counter is both read and written, so it is not the register in question.
  | inr q | dcr q =>
    have hwrites : r ∉ q.targetWrites := by
      cases q <;> simp_all [Instr.effects, Reg.sourceReads, Reg.targetWrites]
    simp only [execute, get_set_of_not_source (q := q) hr hreads,
      setCounter_set (q := q) hr hreads]
    simp [Instr.effects, hwrites, Except.map]
  | lxi p v =>
    simp only [execute, imm_set]
    cases m.imm v with
    | error _ => rfl
    | ok v => exact congrArg Except.ok (setPair_set hr)
  | lhld a =>
    simp only [execute, imm_set, memory_set hr]
    cases m.imm a with
    | error _ => rfl
    | ok v => exact congrArg Except.ok (setPair_set (p := .h) hr)
  | shld a =>
    have hhl : (m.set r x).hl = m.hl := pair_set_of_not_mem (p := .h) hr hreads
    simp only [execute, imm_set, hhl]
    cases m.imm a with
    | error _ => rfl
    | ok v => cases r <;> first | contradiction | rfl
  | inx p | dcx p =>
    simp only [execute, pair_set_of_not_mem (p := p) hr hreads]
    exact congrArg Except.ok (setPair_set hr)
  | pop p =>
    simp only [execute]
    cases r <;> cases p <;> first | contradiction | rfl
  | push p =>
    simp only [execute, pair_set_of_not_mem (p := p) hr hreads]
    cases r <;> first | contradiction | rfl
  | dad p =>
    simp only [Instr.effects, List.mem_append, not_or] at hreads
    simp only [execute, pair_set_of_not_mem hr hreads.1,
      show (m.set r x).hl = m.hl from pair_set_of_not_mem (p := .h) hr hreads.2]
    cases r <;> first | contradiction | rfl
  | cma | ral | rar | xchg | xthl =>
    cases r <;> first | contradiction | rfl
  | comment _ => rfl
  | call _ | jump _ _ | hlt => cases hbarrier

theorem register_set {m : Machine} {r q : Reg} {v : Byte} (hr : r ≠ .m)
    (h : r ∉ q.targetWrites) : (m.set q v).registers.get r = m.registers.get r := by
  cases r <;> cases q <;> first | contradiction | rfl

/-- A register outside a pair keeps its byte when the pair is loaded. -/
theorem register_setPair {m : Machine} {r : Reg} {p : Pair} {v : Word} (hr : r ≠ .m)
    (h : r ∉ p.registers) : (m.setPair p v).registers.get r = m.registers.get r := by
  cases r <;> cases p <;> first | contradiction | rfl

/-- If a composed computation succeeds, so does its first part, and the second continues from
there. -/
theorem exists_ok_of_bind {ε α β : Type} {x : Except ε α} {f : α → Except ε β} {b : β}
    (h : (x >>= f) = .ok b) : ∃ a, x = .ok a ∧ f a = .ok b := by
  cases x with
  | error _ => cases h
  | ok a => exact ⟨a, rfl, h⟩

/-- A register that an instruction does not write keeps its byte. As before, what it writes is said
by the table of effects. -/
theorem execute_register {m m' : Machine} {i : Instr} {r : Reg} (h : m.execute i = .ok m')
    (hr : r ≠ .m) (hwrites : i.writes r = false) :
    m'.registers.get r = m.registers.get r := by
  simp only [Instr.writes, List.contains_eq_mem, decide_eq_false_iff_not] at hwrites
  cases i with
  | mov dst _ | mvi dst _ => cases h; exact register_set (q := dst) hr hwrites
  | inr q | dcr q => cases h; exact register_set (q := q) hr hwrites
  | ldax _ => cases h; exact register_set (q := .a) hr hwrites
  | cma | ral | rar => cases h; exact register_set (q := .a) hr hwrites
  | alu op _ | aluImm op _ =>
    cases h
    cases op <;> first | rfl | exact register_set (q := .a) hr hwrites
  | lda a =>
    obtain ⟨v, _, h⟩ := exists_ok_of_bind h
    cases h
    exact register_set (q := .a) hr hwrites
  | lxi p v =>
    obtain ⟨v, _, h⟩ := exists_ok_of_bind h
    cases h
    exact register_setPair hr hwrites
  | lhld a =>
    obtain ⟨v, _, h⟩ := exists_ok_of_bind h
    cases h
    exact register_setPair (p := .h) hr hwrites
  | sta a | shld a =>
    obtain ⟨v, _, h⟩ := exists_ok_of_bind h
    cases h
    rfl
  | inx p | dcx p | pop p => cases h; exact register_setPair (p := p) hr hwrites
  | dad p => cases h; exact register_setPair (p := .h) hr hwrites
  | xthl => cases h; exact register_setPair (p := .h) hr hwrites
  | xchg => cases h; cases r <;> first | contradiction | rfl
  | stax _ | push _ | call _ | jump _ _ | hlt | comment _ => cases h; rfl

theorem addresses_set (m : Machine) (r : Reg) (x : Byte) :
    (m.set r x).addresses = m.addresses := by
  cases r <;> rfl

theorem addresses_setPair (m : Machine) (p : Pair) (v : Word) :
    (m.setPair p v).addresses = m.addresses := by
  cases p <;> rfl

/-- Instructions do not move variables. The table of addresses is part of the machine only because
immediates refer to it. -/
theorem execute_addresses {m m' : Machine} {i : Instr} (h : m.execute i = .ok m') :
    m'.addresses = m.addresses := by
  cases i with
  | mov _ _ | mvi _ _ | ldax _ | inr _ | dcr _ | cma | ral | rar => cases h; exact addresses_set ..
  | alu op _ | aluImm op _ => cases h; cases op <;> rfl
  | lda _ =>
    obtain ⟨_, _, h⟩ := exists_ok_of_bind h
    cases h
    exact addresses_set ..
  | lxi _ _ | lhld _ =>
    obtain ⟨_, _, h⟩ := exists_ok_of_bind h
    cases h
    exact addresses_setPair ..
  | sta _ | shld _ =>
    obtain ⟨_, _, h⟩ := exists_ok_of_bind h
    cases h
    rfl
  | inx _ | dcx _ | pop _ | dad _ | xthl => cases h; exact addresses_setPair ..
  | xchg | stax _ | push _ | call _ | jump _ _ | hlt | comment _ => cases h; rfl

/-! ## Memory

`loads` and `stores` say which bytes an instruction reads and which it writes, with the values. -/

/-- The address of an operand that lies in memory. -/
def operandCells (m : Machine) : Reg → List Word
  | .m => [m.hl]
  | _ => []

/-- The byte addresses of a word. -/
def wordCells (address : Word) : List Word :=
  [address, address + 1]

/-- The address that an immediate stands for, if it stands for one. -/
def immAddress? (m : Machine) (address : Imm) : Option Word :=
  (m.imm address).toOption

/-- The addresses an instruction reads. -/
def loads (m : Machine) : Instr → List Word
  | .mov _ src | .alu _ src => m.operandCells src
  | .inr r | .dcr r => m.operandCells r
  | .lda address => (m.immAddress? address).toList
  | .lhld address => (m.immAddress? address).toList.flatMap wordCells
  | .ldax p => [m.pair p]
  | .xthl | .pop _ => wordCells m.sp
  | _ => []

/-- The bytes of a word that is stored at an address. -/
def wordStores (address value : Word) : List (Word × Byte) :=
  [(address, value.extractLsb' 0 8), (address + 1, value.extractLsb' 8 8)]

/-- The bytes an instruction writes. -/
def stores (m : Machine) : Instr → List (Word × Byte)
  | .mov dst src => (m.operandCells dst).map fun a => (a, m.get src)
  | .mvi dst value => (m.operandCells dst).map fun a => (a, value)
  | .inr r => (m.operandCells r).map fun a => (a, m.get r + 1)
  | .dcr r => (m.operandCells r).map fun a => (a, m.get r - 1)
  | .sta address => (m.immAddress? address).toList.map fun a => (a, m.registers.a)
  | .shld address => (m.immAddress? address).toList.flatMap fun a => wordStores a m.hl
  | .stax p => [(m.pair p, m.registers.a)]
  | .xthl => wordStores m.sp m.hl
  | .push p => wordStores (m.sp - 2) (m.pair p)
  | .call _ => wordStores (m.sp - 2) returnMark
  | _ => []

/-- An operand is the same in another memory, if that has the same byte where the operand is
read. -/
theorem get_withMemory {m : Machine} {memory : Memory} {r : Reg}
    (h : ∀ a ∈ m.operandCells r, memory.read a = m.memory.read a) :
    { m with memory }.get r = m.get r := by
  cases r <;> first | rfl | exact h _ (List.mem_singleton_self _)

/-- Setting an operand in another memory writes the same byte there, or the same register. -/
theorem set_withMemory (m : Machine) (memory : Memory) (r : Reg) (v : Byte) :
    { m with memory }.set r v =
      { m.set r v with memory := memory.writeAll ((m.operandCells r).map fun a => (a, v)) } := by
  cases r <;> rfl

theorem pair_withMemory (m : Machine) (memory : Memory) (p : Pair) :
    { m with memory }.pair p = m.pair p := by
  cases p <;> rfl

theorem setPair_withMemory (m : Machine) (memory : Memory) (p : Pair) (v : Word) :
    { m with memory }.setPair p v = { m.setPair p v with memory } := by
  cases p <;> rfl

theorem readWord_congr {x y : Memory} {a : Word} (h : ∀ b ∈ wordCells a, x.read b = y.read b) :
    x.readWord a = y.readWord a := by
  rw [Memory.readWord, Memory.readWord, h a (by simp [wordCells]), h (a + 1) (by simp [wordCells])]

theorem immAddress?_of_imm {m : Machine} {address : Imm} {a : Word} (h : m.imm address = .ok a) :
    m.immAddress? address = some a := by
  rw [immAddress?, h]
  rfl

/-- Other memory contents do not matter to an instruction that does not read them: it does the
same to the registers, and writes the same bytes. -/
theorem execute_withMemory {m m' : Machine} {i : Instr} {memory : Memory}
    (h : m.execute i = .ok m') (hbarrier : i.isBarrier = false)
    (hloads : ∀ a ∈ m.loads i, memory.read a = m.memory.read a) :
    { m with memory }.execute i = .ok { m' with memory := memory.writeAll (m.stores i) } := by
  cases i with
  | mov dst src =>
    cases h
    simp only [execute, get_withMemory (r := src) hloads, set_withMemory]
    rfl
  | mvi dst v =>
    cases h
    simp only [execute, set_withMemory]
    rfl
  | lda a =>
    obtain ⟨x, hx, h⟩ := exists_ok_of_bind h
    cases h
    have hread : memory.read x = m.memory.read x :=
      hloads x (by simp [loads, immAddress?_of_imm hx])
    have himm : { m with memory }.imm a = .ok x := hx
    simp only [execute, himm, bind, Except.bind, hread]
    rfl
  | sta a =>
    obtain ⟨x, hx, h⟩ := exists_ok_of_bind h
    cases h
    have himm : { m with memory }.imm a = .ok x := hx
    simp only [execute, himm, bind, Except.bind, stores, immAddress?_of_imm hx]
    rfl
  | ldax p =>
    cases h
    have hread := hloads (m.pair p) (List.mem_singleton_self _)
    simp only [execute, pair_withMemory, hread]
    rfl
  | stax p =>
    cases h
    simp only [execute, pair_withMemory]
    rfl
  | alu op src =>
    cases h
    simp only [execute, get_withMemory (r := src) hloads]
    cases op <;> rfl
  | aluImm op v =>
    cases h
    cases op <;> rfl
  | inr r | dcr r =>
    cases h
    simp only [execute, get_withMemory (r := r) hloads]
    cases r <;> rfl
  | lxi p v =>
    obtain ⟨x, hx, h⟩ := exists_ok_of_bind h
    cases h
    have himm : { m with memory }.imm v = .ok x := hx
    simp only [execute, himm, bind, Except.bind, setPair_withMemory]
    rfl
  | lhld a =>
    obtain ⟨x, hx, h⟩ := exists_ok_of_bind h
    cases h
    have hread : memory.readWord x = m.memory.readWord x :=
      readWord_congr fun b hb => hloads b (by simpa [loads, immAddress?_of_imm hx] using hb)
    have himm : { m with memory }.imm a = .ok x := hx
    simp only [execute, himm, bind, Except.bind, hread]
    rfl
  | shld a =>
    obtain ⟨x, hx, h⟩ := exists_ok_of_bind h
    cases h
    have himm : { m with memory }.imm a = .ok x := hx
    simp only [execute, himm, bind, Except.bind, stores, immAddress?_of_imm hx]
    rfl
  | inx p | dcx p =>
    cases h
    simp only [execute, pair_withMemory, setPair_withMemory]
    rfl
  | dad p =>
    cases h
    simp only [execute, pair_withMemory]
    rfl
  -- The word on top of the stack is read here, so it has to be the same in both memories.
  | xthl =>
    cases h
    have hread : memory.readWord m.sp = m.memory.readWord m.sp := readWord_congr hloads
    simp only [execute, hread]
    rfl
  | push p =>
    cases h
    simp only [execute, pair_withMemory]
    rfl
  | pop p =>
    cases h
    have hread : memory.readWord m.sp = m.memory.readWord m.sp := readWord_congr hloads
    simp only [execute, pop, hread]
    cases p <;> rfl
  | cma | ral | rar | xchg | comment _ => cases h; rfl
  | call _ | jump _ _ | hlt => cases hbarrier

/-- An instruction writes the bytes of `stores`, and no other. -/
theorem execute_memory {m m' : Machine} {i : Instr} (h : m.execute i = .ok m')
    (hbarrier : i.isBarrier = false) : m'.memory = m.memory.writeAll (m.stores i) := by
  have hself : m.execute i = .ok { m' with memory := m.memory.writeAll (m.stores i) } :=
    execute_withMemory h hbarrier fun _ _ => rfl
  have heq : m' = { m' with memory := m.memory.writeAll (m.stores i) } :=
    Except.ok.inj (h.symm.trans hself)
  exact congrArg Machine.memory heq

/-- An instruction that the table says does not write memory writes no byte. -/
theorem stores_eq_nil {m : Machine} {i : Instr} (h : i.writesMemory = false)
    (hbarrier : i.isBarrier = false) : m.stores i = [] := by
  cases i with
  | mov dst _ | mvi dst _ => cases dst <;> simp_all [Instr.writesMemory, Instr.effects] <;> rfl
  | inr r | dcr r => cases r <;> simp_all [Instr.writesMemory, Instr.effects] <;> rfl
  | sta _ | stax _ | shld _ | xthl | push _ => cases h
  | call _ => cases hbarrier
  | _ => rfl

/-- An instruction that the table says does not read memory reads no byte. -/
theorem loads_eq_nil {m : Machine} {i : Instr} (h : i.readsMemory = false) : m.loads i = [] := by
  cases i with
  | mov _ r | alu _ r => cases r <;> simp_all [Instr.readsMemory, Instr.effects] <;> rfl
  | inr r | dcr r => cases r <;> simp_all [Instr.readsMemory, Instr.effects] <;> rfl
  | lda _ | lhld _ | ldax _ | xthl | pop _ => cases h
  | _ => rfl

/-- The cell of an operand is given by HL, so other registers do not affect it. -/
theorem operandCells_set {m : Machine} {r q : Reg} {x : Byte} (h : r ∉ q.targetReads)
    (hr : r ≠ .m) :
    (m.set r x).operandCells q = m.operandCells q := by
  cases q <;> cases r <;> first | contradiction | rfl

theorem immAddress?_set (m : Machine) (r : Reg) (x : Byte) (a : Imm) :
    (m.set r x).immAddress? a = m.immAddress? a := by
  rw [immAddress?, imm_set, immAddress?]

/-- What is read to write an operand is also read to read it. -/
theorem targetReads_subset_sourceReads {r q : Reg} (h : r ∉ q.sourceReads) : r ∉ q.targetReads := by
  cases q <;> first | exact h | exact List.not_mem_nil

/-- A register that an instruction does not read has no part in which bytes it reads. -/
theorem loads_set {m : Machine} {i : Instr} {r : Reg} (x : Byte) (hr : r ≠ .m)
    (hreads : i.reads r = false) : (m.set r x).loads i = m.loads i := by
  simp only [Instr.reads, List.contains_eq_mem, decide_eq_false_iff_not] at hreads
  cases i with
  | mov _ src | alu _ src =>
    simp only [Instr.effects, List.mem_append, not_or] at hreads
    exact operandCells_set (targetReads_subset_sourceReads hreads.1) hr
  | inr q | dcr q => exact operandCells_set (targetReads_subset_sourceReads hreads) hr
  | lda _ | lhld _ => simp only [loads, immAddress?_set]
  | ldax p => simp only [loads, pair_set_of_not_mem (p := p) hr hreads]
  | xthl | pop _ => simp only [loads, sp_set]
  | _ => rfl

/-- A register that an instruction does not read has no part in which bytes it writes, nor in what
it writes there. -/
theorem stores_set {m : Machine} {i : Instr} {r : Reg} (x : Byte) (hr : r ≠ .m)
    (hreads : i.reads r = false) : (m.set r x).stores i = m.stores i := by
  simp only [Instr.reads, List.contains_eq_mem, decide_eq_false_iff_not] at hreads
  cases i with
  | mov dst src =>
    simp only [Instr.effects, List.mem_append, not_or] at hreads
    simp only [stores, operandCells_set hreads.2 hr, get_set_of_not_source hr hreads.1]
  | mvi dst _ => simp only [stores, operandCells_set (q := dst) hreads hr]
  | inr q | dcr q =>
    simp only [stores, operandCells_set (q := q) (targetReads_subset_sourceReads hreads) hr,
      get_set_of_not_source (q := q) hr hreads]
  | sta _ =>
    simp only [Instr.effects, List.mem_singleton] at hreads
    simp only [stores, immAddress?_set, registers_a_set hreads]
  | shld _ =>
    have hhl : (m.set r x).hl = m.hl := pair_set_of_not_mem (p := .h) hr hreads
    simp only [stores, immAddress?_set, hhl]
  | stax p =>
    simp only [Instr.effects, List.mem_append, List.mem_singleton, not_or] at hreads
    simp only [stores, pair_set_of_not_mem hr hreads.1, registers_a_set hreads.2]
  -- Both HL and the stack pointer have a part in what is written.
  | xthl =>
    have hhl : (m.set r x).hl = m.hl := pair_set_of_not_mem (p := .h) hr hreads
    simp only [stores, sp_set, hhl]
  | push p => simp only [stores, sp_set, pair_set_of_not_mem (p := p) hr hreads]
  | call _ => simp only [stores, sp_set]
  | _ => rfl

end Machine

end Accumulator
