import Accumulator.Proofs.Machine.Walk
import Accumulator.Proofs.Outcome
import Accumulator.Proofs.RegisterFile
import Accumulator.Select.Loading

/-!
# Machines that agree with a selection

While instructions are selected, the state says what the registers and the save slot will hold when
the code has run so far. A machine agrees with the state if that is what they hold, under some
valuation of operands and addresses, and if memory provides what the selector takes from it.

`Leads` says that the code a step appended takes a machine that agrees with the state before to one
that agrees with the state after. Steps are short sequences of instructions with an update of the
record; there is a lemma here for each such sequence.
-/

namespace Accumulator

/-- The word that each value stands for. -/
abbrev Valuation := Value → Word

/-- The byte of a word on one side. -/
def Side.part : Side → Word → Byte
  | high, w => w.extractLsb' 8 8
  | low, w => w.extractLsb' 0 8

/-- A register with this record may hold the byte. -/
def Content.Holds (ρ : Valuation) (x : Byte) : Content → Prop
  | empty => True
  | scalar v => x = Side.low.part (ρ v)
  | half v side => x = side.part (ρ v)

namespace RegisterFile

/-- What is recorded of each register is so. -/
def Describes (ρ : Valuation) (rf : RegisterFile) (rs : Registers Byte) : Prop :=
  ∀ r, r ≠ .m → (rf.get r).Holds ρ (rs.get r)

variable {ρ : Valuation} {rf : RegisterFile} {rs : Registers Byte} {r high low : Reg} {p : Pair}
  {v : Value} {c : Content} {x : Byte}

/-- A register that is recorded with a value holds its low byte. -/
theorem Describes.byte (h : rf.Describes ρ rs) (hr : r ≠ .m) (hv : rf.get r = .scalar v) :
    rs.get r = Side.low.part (ρ v) := by
  have := h r hr
  rwa [hv] at this

/-- A register that is recorded with half of a value holds that half. -/
theorem Describes.half {side : Side} (h : rf.Describes ρ rs) (hr : r ≠ .m)
    (hv : rf.get r = .half v side) : rs.get r = side.part (ρ v) := by
  have := h r hr
  rwa [hv] at this

/-- Putting a record and a byte that fits it into a register. -/
theorem Describes.put (h : rf.Describes ρ rs) (hr : r ≠ .m) (hx : c.Holds ρ x) :
    (rf.put r c).Describes ρ (rs.set r x) := by
  intro q hq
  rw [get_put hr hq]
  split
  next hqr =>
    rw [hqr, Registers.get_set_self _ _ hr]
    exact hx
  next hqr =>
    rw [Registers.get_set_of_ne _ _ hr hq hqr]
    exact h q hq

/-- Putting a record that fits what the register holds already. -/
theorem Describes.put_get (h : rf.Describes ρ rs) (hr : r ≠ .m) (hx : c.Holds ρ (rs.get r)) :
    (rf.put r c).Describes ρ rs := by
  intro q hq
  rw [get_put hr hq]
  split
  next hqr =>
    rw [hqr]
    exact hx
  next => exact h q hq

/-- A record that says less is still right. -/
theorem Describes.clear (h : rf.Describes ρ rs) : (rf.clear r).Describes ρ rs := by
  intro q hq
  by_cases hr : r = .m
  · subst hr
    exact h q hq
  · rw [get_clear hr hq]
    split
    · trivial
    · exact h q hq

/-- A register that is forgotten may hold anything. -/
theorem Describes.clear_set (h : rf.Describes ρ rs) (hr : r ≠ .m) :
    (rf.clear r).Describes ρ (rs.set r x) := by
  intro q hq
  by_cases hqr : q = r
  · subst hqr
    rw [get_clear_self hr]
    trivial
  · rw [Registers.get_set_of_ne _ _ hr hq hqr]
    exact h.clear q hq

/-- A register is loaded with the low byte of a value and recorded with it. -/
theorem Describes.bind (h : rf.Describes ρ rs) (hr : r ≠ .m) (hx : x = Side.low.part (ρ v)) :
    (rf.bind r v).Describes ρ (rs.set r x) := by
  rw [RegisterFile.bind, if_neg hr]
  exact h.clear.put hr hx

theorem Describes.clearPair (h : rf.Describes ρ rs) : (rf.clearPair p).Describes ρ rs := by
  unfold RegisterFile.clearPair
  split
  · exact h.clear.clear
  · exact h

/-- Both registers of a pair are loaded with the halves of a value and recorded with it. -/
theorem Describes.bindPair (h : rf.Describes ρ rs) (hp : p.halves? = some (high, low)) :
    (rf.bindPair p v).Describes ρ
      ((rs.set high (Side.high.part (ρ v))).set low (Side.low.part (ρ v))) := by
  have hne := Pair.halves?_ne hp
  simp only [RegisterFile.bindPair, hp]
  exact (h.clear.clear.put (c := .half v .high) hne.1 rfl).put (c := .half v .low) hne.2.1 rfl

/-- A pair is copied to another one, registers and record alike. -/
theorem Describes.copyPair {source target : Pair} {sh sl th tl : Reg} (h : rf.Describes ρ rs)
    (hsource : source.halves? = some (sh, sl)) (htarget : target.halves? = some (th, tl)) :
    (rf.copyPair source target).Describes ρ ((rs.set th (rs.get sh)).set tl (rs.get sl)) := by
  have hs := Pair.halves?_ne hsource
  have ht := Pair.halves?_ne htarget
  simp only [RegisterFile.copyPair, hsource, htarget]
  exact (h.put ht.1 (h sh hs.1)).put ht.2.1 (h sl hs.2.1)

/-- DE and HL are exchanged, registers and record alike. -/
theorem Describes.swapPairs (h : rf.Describes ρ rs) :
    (rf.swapPairs .d .h).Describes ρ { rs with d := rs.h, e := rs.l, h := rs.d, l := rs.e } := by
  intro r hr
  cases r with
  | m => exact absurd rfl hr
  | a => exact h .a hr
  | b => exact h .b hr
  | c => exact h .c hr
  | d => exact h .h (by decide)
  | e => exact h .l (by decide)
  | h => exact h .d (by decide)
  | l => exact h .e (by decide)

end RegisterFile

theorem Pair.halves?_of_isGeneral {p : Pair} (h : p.isGeneral = true) :
    ∃ high low, p.halves? = some (high, low) := by
  cases p <;> first | exact ⟨_, _, rfl⟩ | cases h

theorem Side.append_parts (w : Word) : Side.high.part w ++ Side.low.part w = w :=
  high_append_low w

theorem low_part_readWord (memory : Memory) (a : Word) :
    Side.low.part (memory.readWord a) = memory.read a :=
  low_of_append _ _

theorem high_part_readWord (memory : Memory) (a : Word) :
    Side.high.part (memory.readWord a) = memory.read (a + 1) :=
  high_of_append _ _

namespace Machine

/-- DE and HL exchanged. -/
def exchanged (m : Machine) : Machine :=
  { m with registers :=
      { m.registers with
        d := m.registers.h, e := m.registers.l, h := m.registers.d, l := m.registers.e } }

theorem step_xchg (m : Machine) : m.step .xchg = .ok m.exchanged := by
  show (Except.ok ((m.setPair .d (m.pair .h)).setPair .h (m.pair .d)) : Except Fault Machine) = _
  simp only [setPair, pair, hl, high_of_append, low_of_append]
  rfl

theorem setPair_of_halves? {m : Machine} {p : Pair} {high low : Reg} {w : Word}
    (hp : p.halves? = some (high, low)) :
    m.setPair p w =
      { m with registers :=
          (m.registers.set high (Side.high.part w)).set low (Side.low.part w) } := by
  cases p <;> cases hp <;> rfl

end Machine

namespace Select

open RegisterFile

variable {ρ : Valuation} {s s' s'' : State} {m m' m'' : Machine}

/-! ## Agreement -/

/-- The stack pointer as it is while the save slot is empty. -/
def State.stackBase (s : State) (m : Machine) : Word :=
  if s.spill.isSome then m.sp + 2 else m.sp

/-- The bytes that the code may push to: the save slot and one more word. -/
def stackArea (base : Word) : List Word :=
  [base - 4, base - 3, base - 2, base - 1]

/-- The address holds the byte, and nothing is pushed there. -/
def Stored (base : Word) (m : Machine) (address : Word) (x : Byte) : Prop :=
  address ∉ stackArea base ∧ m.memory.read address = x

/-- The valuation is right about literals, variables and what lies in memory. -/
structure Surroundings (ρ : Valuation) (s : State) (m : Machine) : Prop where
  literal : ∀ c, ρ (.const c) = BitVec.ofInt 16 c
  /-- A byte that is no literal is extended with zeros. -/
  extended : ∀ o, o.isConst = false → s.isByte (.of o) = true → Side.high.part (ρ (.of o)) = 0
  declared : ∀ v ∈ s.pinned, ∀ name, v.operand = .var name → ∃ a, m.addressOf? name = some a
  address : ∀ name a, m.addressOf? name = some a → ρ (.addr (.var name)) = a
  variableLow : ∀ name a, m.addressOf? name = some a →
    Stored (s.stackBase m) m a (Side.low.part (ρ (.var name)))
  variableHigh : ∀ name a, m.addressOf? name = some a → s.isByte (.var name) = false →
    Stored (s.stackBase m) m (a + 1) (Side.high.part (ρ (.var name)))
  /-- An operand of the current triple that stays in memory is at its address. -/
  operand : ∀ v ∈ s.pinned, s.isMemoryOperand v.operand = true →
    Stored (s.stackBase m) m (ρ (.addr v.operand)) (Side.low.part (ρ (.of v.operand)))

/-- The machine is as the state says. -/
structure Agrees (ρ : Valuation) (s : State) (m : Machine) : Prop
    extends Surroundings ρ s m where
  registers : s.regs.Describes ρ m.registers
  saved : ∀ slot ∈ s.spill, m.memory.readWord m.sp = ρ slot.value

/-- What selecting part of a triple leaves alone. -/
structure Frame (s : State) (m : Machine) (s' : State) (m' : Machine) : Prop where
  triples : s'.triples = s.triples
  symbols : s'.symbols = s.symbols
  pos : s'.pos = s.pos
  pinned : s'.pinned = s.pinned
  addresses : m'.addresses = m.addresses
  base : s'.stackBase m' = s.stackBase m
  memory : ∀ a ∉ stackArea (s.stackBase m), m'.memory.read a = m.memory.read a

/-- Frames compose: what one step leaves alone and the next one too, both together leave alone. -/
theorem Frame.trans (h : Frame s m s' m') (h' : Frame s' m' s'' m'') : Frame s m s'' m'' where
  triples := h'.triples.trans h.triples
  symbols := h'.symbols.trans h.symbols
  pos := h'.pos.trans h.pos
  pinned := h'.pinned.trans h.pinned
  addresses := h'.addresses.trans h.addresses
  base := h'.base.trans h.base
  memory a ha := (h'.memory a (by rwa [h.base])).trans (h.memory a ha)

/-- Widths do not change in the middle of a triple, since triples and symbols do not. -/
theorem Frame.widthOf (h : Frame s m s' m') : s'.widthOf = s.widthOf := by
  funext v
  cases v with
  | of o => simp only [State.widthOf, h.triples, h.symbols]
  | addr o => rfl

/-- Whether a value is a byte does not change in the middle of a triple. -/
theorem Frame.isByte (h : Frame s m s' m') (v : Value) : s'.isByte v = s.isByte v := by
  simp only [State.isByte, h.widthOf]

/-- Whether an operand stays in memory does not change in the middle of a triple. -/
theorem Frame.isMemoryOperand (h : Frame s m s' m') (o : Operand) :
    s'.isMemoryOperand o = s.isMemoryOperand o := by
  simp only [State.isMemoryOperand, h.triples]

theorem Frame.addressOf? (h : Frame s m s' m') (name : String) :
    m'.addressOf? name = m.addressOf? name := by
  simp only [Machine.addressOf?, h.addresses]

/-- A byte outside the stack area stays where it is stored. -/
theorem Frame.stored {a : Word} {x : Byte} (h : Frame s m s' m')
    (hstored : Stored (s.stackBase m) m a x) : Stored (s'.stackBase m') m' a x := by
  obtain ⟨hapart, hread⟩ := hstored
  exact ⟨by rwa [h.base], (h.memory a hapart).trans hread⟩

/-- Whatever the registers do not hold is right after a step that changes registers and stack
only. -/
theorem Surroundings.of_frame (h : Surroundings ρ s m) (hframe : Frame s m s' m') :
    Surroundings ρ s' m' where
  literal := h.literal
  extended o ho hbyte := h.extended o ho (by rwa [hframe.isByte] at hbyte)
  declared v hv name hname := by
    rw [hframe.pinned] at hv
    rw [hframe.addressOf?]
    exact h.declared v hv name hname
  address name a ha := h.address name a (by rwa [hframe.addressOf?] at ha)
  variableLow name a ha := hframe.stored (h.variableLow name a (by rwa [hframe.addressOf?] at ha))
  variableHigh name a ha hword :=
    hframe.stored (h.variableHigh name a (by rwa [hframe.addressOf?] at ha)
      (by rwa [hframe.isByte] at hword))
  operand v hv hmemory := by
    rw [hframe.pinned] at hv
    rw [hframe.isMemoryOperand] at hmemory
    exact hframe.stored (h.operand v hv hmemory)

/-- The addresses that the selector may read: those of the variables, and those of the operands of
the current triple that stay in memory. -/
inductive Provided (ρ : Valuation) (s : State) (m : Machine) : Word → Prop where
  | low {name : String} {a : Word} (ha : m.addressOf? name = some a) : Provided ρ s m a
  | high {name : String} {a : Word} (ha : m.addressOf? name = some a)
      (hword : s.isByte (.var name) = false) : Provided ρ s m (a + 1)
  | operand {v : Value} (hv : v ∈ s.pinned) (hmemory : s.isMemoryOperand v.operand = true) :
      Provided ρ s m (ρ (.addr v.operand))

/-- What may be read after a step might be read before it. -/
theorem Frame.provided {a : Word} (h : Frame s m s' m') (ha : Provided ρ s' m' a) :
    Provided ρ s m a := by
  cases ha with
  | low ha => exact .low (by rwa [h.addressOf?] at ha)
  | high ha hword => exact .high (by rwa [h.addressOf?] at ha) (by rwa [h.isByte] at hword)
  | operand hv hmemory =>
    exact .operand (by rwa [h.pinned] at hv) (by rwa [h.isMemoryOperand] at hmemory)

/-- The code appended between two states takes one machine to the other, which agrees with the
state after it. -/
structure Leads (ρ : Valuation) (s : State) (m : Machine) (s' : State) (m' : Machine) : Prop where
  path : ∃ is, s'.code = s.code ++ is ∧ Machine.Strides (Provided ρ s m) is m m'
  frame : Frame s m s' m'
  agrees : Agrees ρ s' m'
  matched : s'.regs.Matched

/-- The code that a step emits runs from one machine to the other, as a fold over its
instructions. -/
theorem Leads.code (h : Leads ρ s m s' m') :
    ∃ is, s'.code = s.code ++ is ∧ is.foldlM Machine.step m = .ok m' := by
  obtain ⟨is, hcode, hrun⟩ := h.path
  exact ⟨is, hcode, hrun.foldlM_eq⟩

theorem Leads.trans (h : Leads ρ s m s' m') (h' : Leads ρ s' m' s'' m'') :
    Leads ρ s m s'' m'' := by
  obtain ⟨is, hcode, hrun⟩ := h.path
  obtain ⟨js, hcode', hrun'⟩ := h'.path
  refine ⟨⟨is ++ js, ?_, ?_⟩, h.frame.trans h'.frame, h'.agrees, h'.matched⟩
  · rw [hcode', hcode, List.append_assoc]
  · exact hrun.append (hrun'.mono fun _ ha => h.frame.provided ha)

/-! ## Steps

A step that does not fail leads somewhere. -/

section Steps

variable {α β : Type} {Q : α → State → Machine → Prop}

/-- If the step succeeds, its code leads to a machine for which, with the answer and the state,
`Q` holds. -/
def Tracks (ρ : Valuation) (x : Selecting α) (s : State) (m : Machine)
    (Q : α → State → Machine → Prop) : Prop :=
  After x s fun a s' => ∃ m', Leads ρ s m s' m' ∧ Q a s' m'

/-- If the machine follows a step, and from wherever that leads it follows the next one, it follows
both. -/
theorem Tracks.bind {x : Selecting β} {f : β → Selecting α} {P : β → State → Machine → Prop}
    (hx : Tracks ρ x s m P)
    (hf : ∀ b s' m', Leads ρ s m s' m' → P b s' m' → Tracks ρ (f b) s' m' Q) :
    Tracks ρ (x >>= f) s m Q := by
  refine (after_bind x f).mpr (After.mono hx ?_)
  rintro b s' ⟨m', hleads, hP⟩
  refine After.mono (hf b s' m' hleads hP) ?_
  rintro a s'' ⟨m'', hleads', hQ⟩
  exact ⟨m'', hleads.trans hleads', hQ⟩

/-- What a step ends with may be weakened, knowing that the machine has followed it. -/
theorem Tracks.mono {x : Selecting α} {P : α → State → Machine → Prop} (h : Tracks ρ x s m P)
    (himp : ∀ a s' m', Leads ρ s m s' m' → P a s' m' → Q a s' m') : Tracks ρ x s m Q := by
  refine After.mono h ?_
  rintro a s' ⟨m', hleads, hP⟩
  exact ⟨m', hleads, himp a s' m' hleads hP⟩

/-- Emitting an instruction adds it to the code and changes nothing else. -/
@[simp] theorem after_emit {Q : PUnit → State → Prop} (i : Instr) :
    After (emit i) s Q ↔ Q ⟨⟩ { s with code := s.code ++ [i] } :=
  after_modify _

/-- Emitting instructions adds them to the code and changes nothing else. -/
@[simp] theorem after_emitAll {Q : PUnit → State → Prop} (is : List Instr) :
    After (emitAll is) s Q ↔ Q ⟨⟩ { s with code := s.code ++ is } :=
  after_modify _

@[simp] theorem after_record {Q : PUnit → State → Prop} (f : RegisterFile → RegisterFile) :
    After (record f) s Q ↔ Q ⟨⟩ { s with regs := f s.regs } :=
  after_modify _

theorem tracks_get {f : State → Selecting α} (h : Tracks ρ (f s) s m Q) :
    Tracks ρ (get >>= f) s m Q :=
  (after_bind _ _).mpr (after_get.mpr h)

/-- A selection that is rejected has no outcome to say anything about. -/
theorem after_reject {Q : α → State → Prop} (reason : Rejection) : After (reject reason) s Q :=
  after_throw _

theorem after_rejectTooComplex {Q : α → State → Prop} : After rejectTooComplex s Q := by
  refine (after_bind _ _).mpr (after_get.mpr ?_)
  exact after_throw _

end Steps

/-! ## Code that changes registers only -/

section Registers

variable {is : List Instr} {rs : Registers Byte} {rf : RegisterFile}

/-- Code that changes registers only, with a record that is right about them, leads on. Most steps
of the selector are of this kind. -/
theorem Leads.of_registers (h : Agrees ρ s m)
    (hrun : Machine.Strides (Provided ρ s m) is m { m with registers := rs })
    (hrf : rf.Describes ρ rs) (hmatched : rf.Matched) :
    Leads ρ s m { s with code := s.code ++ is, regs := rf } { m with registers := rs } where
  path := ⟨is, rfl, hrun⟩
  frame := ⟨rfl, rfl, rfl, rfl, rfl, rfl, fun _ _ => rfl⟩
  agrees :=
    { h.toSurroundings.of_frame ⟨rfl, rfl, rfl, rfl, rfl, rfl, fun _ _ => rfl⟩ with
      registers := hrf
      saved := h.saved }
  matched := hmatched

/-- A record that says less, or the same in other words, leads on without any code. -/
theorem Leads.of_record (h : Agrees ρ s m) (hrf : rf.Describes ρ m.registers)
    (hmatched : rf.Matched) : Leads ρ s m { s with regs := rf } m where
  path := ⟨[], (List.append_nil _).symm, .nil m⟩
  frame := ⟨rfl, rfl, rfl, rfl, rfl, rfl, fun _ _ => rfl⟩
  agrees :=
    { h.toSurroundings.of_frame ⟨rfl, rfl, rfl, rfl, rfl, rfl, fun _ _ => rfl⟩ with
      registers := hrf
      saved := h.saved }
  matched := hmatched

theorem Leads.refl (h : Agrees ρ s m) (hmatched : s.regs.Matched) : Leads ρ s m s m :=
  .of_record h h.registers hmatched

/-- A step that does nothing is followed by the machine as it is. -/
theorem tracks_pure {α : Type} {Q : α → State → Machine → Prop} {a : α} (h : Agrees ρ s m)
    (hmatched : s.regs.Matched) (hQ : Q a s m) : Tracks ρ (pure a) s m Q :=
  (after_pure a).mpr ⟨m, .refl h hmatched, hQ⟩

variable {i : Instr} {r high low : Reg} {p : Pair} {v : Value} {x : Byte}

/-- An instruction that loads a byte into a register, which is recorded with it. -/
theorem leads_setRegister (h : Agrees ρ s m) (hmatched : s.regs.Matched) (hr : r ≠ .m)
    (hstep : Machine.Steps (Provided ρ s m) i m (m.set r x)) (hx : x = Side.low.part (ρ v)) :
    Leads ρ s m { s with code := s.code ++ [i], regs := s.regs.bind r v }
      { m with registers := m.registers.set r x } := by
  rw [Machine.set_of_ne hr] at hstep
  exact .of_registers h (.single hstep) (h.registers.bind hr hx) hmatched.bind

/-- An instruction that loads an unknown byte into a register. The record forgets the register. -/
theorem leads_setUnknown (h : Agrees ρ s m) (hmatched : s.regs.Matched) (hr : r ≠ .m)
    (hstep : Machine.Steps (Provided ρ s m) i m (m.set r x)) :
    Leads ρ s m { s with code := s.code ++ [i], regs := s.regs.clear r }
      { m with registers := m.registers.set r x } := by
  rw [Machine.set_of_ne hr] at hstep
  exact .of_registers h (.single hstep) (h.registers.clear_set hr) hmatched.clear

/-- Instructions that load a word into a pair, which is recorded with it. -/
theorem leads_setPair (h : Agrees ρ s m) (hmatched : s.regs.Matched)
    (hp : p.halves? = some (high, low))
    (hrun : Machine.Strides (Provided ρ s m) is m (m.setPair p (ρ v))) :
    Leads ρ s m { s with code := s.code ++ is, regs := s.regs.bindPair p v }
      (m.setPair p (ρ v)) := by
  rw [Machine.setPair_of_halves? hp] at hrun ⊢
  exact .of_registers h hrun (h.registers.bindPair hp) hmatched.bindPair

/-- A byte moved to the low register of a pair, with zero above it. The record has the byte in the
one and the literal zero in the other register. -/
theorem leads_extend (h : Agrees ρ s m) (hmatched : s.regs.Matched)
    (hp : p.halves? = some (high, low)) (hr : r ≠ .m)
    (hx : m.registers.get r = Side.low.part (ρ v)) :
    Leads ρ s m
      { s with code := s.code ++ [.mov low r, .mvi high 0], regs := s.regs.bindExtended p v }
      { m with registers := (m.registers.set low (m.registers.get r)).set high 0 } := by
  have hne := Pair.halves?_ne hp
  have hhl := Pair.halves?_high_ne_low hp hp
  have hzero : (0 : Byte) = Side.low.part (ρ (.const 0)) := by rw [h.literal]; rfl
  refine .of_registers h ?_ ?_ hmatched.bindExtended
  · have hrun : Machine.Strides (Provided ρ s m) [.mov low r, .mvi high 0] m
        ((m.set low (m.get r)).set high 0) := .cons (.mov hne.2.1 hr) (.single (.mvi hne.1 0))
    rwa [Machine.get_of_ne hr, Machine.set_of_ne hne.2.1, Machine.set_of_ne hne.1] at hrun
  · have hset : (m.registers.set low (m.registers.get r)).set high 0 =
        (m.registers.set high 0).set low (m.registers.get r) := by
      cases p <;> cases hp <;> rfl
    simp only [RegisterFile.bindExtended, hp, hset]
    exact (h.registers.bind hne.1 hzero).bind hne.2.1 hx

theorem leads_exchange (h : Agrees ρ s m) (hmatched : s.regs.Matched) :
    Leads ρ s m { s with code := s.code ++ [.xchg], regs := s.regs.swapPairs .d .h }
      m.exchanged := by
  have hstep : Machine.Steps (Provided ρ s m) .xchg m m.exchanged :=
    .of_registers rfl rfl rfl m.step_xchg
  exact .of_registers h (.single hstep) h.registers.swapPairs hmatched.swapPairs

/-- Two moves copy a pair, and its record with it. The second move reads a register that the first
one has not written. -/
theorem leads_copyPair {source target : Pair} {sh sl th tl : Reg} (h : Agrees ρ s m)
    (hmatched : s.regs.Matched) (hsource : source.halves? = some (sh, sl))
    (htarget : target.halves? = some (th, tl)) :
    Leads ρ s m
      { s with
        code := s.code ++ [.mov th sh, .mov tl sl], regs := s.regs.copyPair source target }
      { m with registers :=
          (m.registers.set th (m.registers.get sh)).set tl (m.registers.get sl) } := by
  have hs := Pair.halves?_ne hsource
  have ht := Pair.halves?_ne htarget
  refine .of_registers h ?_ (h.registers.copyPair hsource htarget) hmatched.copyPair
  have hrun : Machine.Strides (Provided ρ s m) [.mov th sh, .mov tl sl] m
      ((m.set th (m.get sh)).set tl ((m.set th (m.get sh)).get sl)) :=
    .cons (.mov ht.1 hs.1) (.single (.mov ht.2.1 hs.2.1))
  -- The low register of the source is not the high one of the target.
  have hne := Pair.halves?_high_ne_low htarget hsource
  rw [Machine.get_of_ne hs.1, Machine.get_of_ne hs.2.1, Machine.set_of_ne ht.1,
    Machine.set_of_ne ht.2.1] at hrun
  simpa only [Registers.get_set_of_ne _ _ ht.1 hs.2.1 hne.symm] using hrun

end Registers

/-! ## Code that uses the stack -/

section Stack

variable {p : Pair} {high low : Reg} {v : Value} {slot : Spill}

/-- Without a saved value the stack starts where the stack pointer is. -/
theorem stackBase_of_none (h : s.spill = none) : s.stackBase m = m.sp := by
  simp [State.stackBase, h]

/-- With a saved value the stack starts two bytes above the stack pointer. -/
theorem stackBase_of_some (h : s.spill = some slot) : s.stackBase m = m.sp + 2 := by
  simp [State.stackBase, h]

/-- A pair holds the word that is recorded for it. -/
theorem pair_of_pairValue? (h : s.regs.Describes ρ m.registers)
    (hv : s.regs.pairValue? p = some v) : m.pair p = ρ v := by
  obtain ⟨high, low, hp, hhigh, hlow⟩ := halves?_of_pairValue? hv
  have hne := Pair.halves?_ne hp
  rw [Machine.pair_of_halves? hp, h.half hne.1 hhigh, h.half hne.2.1 hlow, Side.append_parts]

/-- What is pushed is pushed to the stack area, so all other memory is as before. -/
theorem read_push (s : State) (m : Machine) (w : Word) {a : Word}
    (ha : a ∉ stackArea (s.stackBase m)) : (m.push w).memory.read a = m.memory.read a := by
  simp only [State.stackBase, stackArea, List.mem_cons, List.not_mem_nil, or_false, not_or] at ha
  refine Memory.read_writeWord_of_ne ?_ ?_
  · split at ha <;> bv_omega
  · split at ha <;> bv_omega

/-- A value in a pair is pushed, and the save slot holds it from now on. The pair keeps it too. -/
theorem leads_push (h : Agrees ρ s m) (hmatched : s.regs.Matched) (hspill : s.spill = none)
    (hv : s.regs.pairValue? p = some v) (position : Nat) :
    Leads ρ s m
      { s with
        code := s.code ++ [.push p], spill := some { value := v, pushAt := position } }
      (m.push (m.pair p)) := by
  have hframe : Frame s m
      { s with
        code := s.code ++ [.push p], spill := some { value := v, pushAt := position } }
      (m.push (m.pair p)) := by
    refine ⟨rfl, rfl, rfl, rfl, rfl, ?_, ?_⟩
    · rw [stackBase_of_none hspill, stackBase_of_some rfl]
      show m.sp - 2 + 2 = m.sp
      bv_omega
    · intro a ha
      exact read_push s m _ ha
  refine ⟨⟨[.push p], rfl, .single (.of_stack rfl rfl)⟩, hframe, ?_, hmatched⟩
  refine { h.toSurroundings.of_frame hframe with registers := h.registers, saved := ?_ }
  rintro slot ⟨⟩
  show (m.memory.writeWord (m.sp - 2) (m.pair p)).readWord (m.sp - 2) = ρ v
  rw [Memory.readWord_writeWord_self, pair_of_pairValue? h.registers hv]

/-- HL changes places with the top of the stack: the save slot holds what HL held, and HL what was
saved. -/
theorem leads_xthl (h : Agrees ρ s m) (hmatched : s.regs.Matched) (hspill : s.spill = some slot)
    (hv : s.regs.pairValue? .h = some v) :
    ∃ m', Leads ρ s m
      { s with
        code := s.code ++ [.xthl], spill := some { slot with value := v, exchanged := true }
        regs := s.regs.bindPair .h slot.value } m' := by
  refine ⟨(m.storeWord m.sp m.hl).setPair .h (ρ slot.value), ?_⟩
  -- The base of the stack stays, since the slot is overwritten and not removed.
  have hframe : Frame s m
      { s with
        code := s.code ++ [.xthl], spill := some { slot with value := v, exchanged := true }
        regs := s.regs.bindPair .h slot.value }
      ((m.storeWord m.sp m.hl).setPair .h (ρ slot.value)) := by
    refine ⟨rfl, rfl, rfl, rfl, rfl, ?_, ?_⟩
    · rw [stackBase_of_some hspill, stackBase_of_some rfl]
      rfl
    · intro a ha
      rw [stackBase_of_some hspill] at ha
      simp only [stackArea, List.mem_cons, List.not_mem_nil, or_false, not_or] at ha
      exact Memory.read_writeWord_of_ne (by bv_omega) (by bv_omega)
  refine ⟨⟨[.xthl], rfl, .single (.of_stack rfl ?_)⟩, hframe, ?_,
    hmatched.bindPair (p := .h) (v := slot.value)⟩
  · rw [← h.saved slot hspill]
    rfl
  · refine { h.toSurroundings.of_frame hframe with
      registers := h.registers.bindPair (p := .h) rfl, saved := ?_ }
    rintro slot' ⟨⟩
    show (m.memory.writeWord m.sp m.hl).readWord m.sp = ρ v
    rw [Memory.readWord_writeWord_self]
    exact pair_of_pairValue? h.registers hv

/-- The saved value is popped into a pair, and the save slot is free again. -/
theorem leads_pop (h : Agrees ρ s m) (hmatched : s.regs.Matched) (hspill : s.spill = some slot)
    (hp : p.halves? = some (high, low)) :
    ∃ m', Leads ρ s m
      { s with
        code := s.code ++ [.pop p], spill := none, regs := s.regs.bindPair p slot.value } m' := by
  refine ⟨{ m with sp := m.sp + 2 }.setPair p (ρ slot.value), ?_⟩
  -- A pop sets the pair and the stack pointer; both are written out to compare with the record.
  have heq : { m with sp := m.sp + 2 }.setPair p (ρ slot.value) =
      { m with
        sp := m.sp + 2
        registers := (m.registers.set high (Side.high.part (ρ slot.value))).set low
          (Side.low.part (ρ slot.value)) } :=
    Machine.setPair_of_halves? hp
  have hframe : Frame s m
      { s with
        code := s.code ++ [.pop p], spill := none, regs := s.regs.bindPair p slot.value }
      ({ m with sp := m.sp + 2 }.setPair p (ρ slot.value)) := by
    rw [heq]
    refine ⟨rfl, rfl, rfl, rfl, rfl, ?_, fun _ _ => rfl⟩
    rw [stackBase_of_some hspill, stackBase_of_none rfl]
  refine ⟨⟨[.pop p], rfl, .single (.of_stack rfl ?_)⟩, hframe, ?_, hmatched.bindPair⟩
  · show (Except.ok ({ m with sp := m.sp + 2 }.setPair p (m.memory.readWord m.sp)) :
      Except Fault Machine) = _
    rw [h.saved slot hspill]
  · refine { h.toSurroundings.of_frame hframe with registers := ?_, saved := nofun }
    rw [heq]
    exact h.registers.bindPair hp

end Stack

end Select

end Accumulator
