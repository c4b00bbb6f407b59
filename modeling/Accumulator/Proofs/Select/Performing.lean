import Mathlib.Tactic.Common
import Accumulator.Proofs.Select.Computation

/-!
# Computing with operands in their places

If the record says that the operands of an operation are in the places it reads, its code leaves the
result where the record says it is afterwards, and the machine still agrees with the record
(`Operation.computes`, `agrees_of_computes`).
-/

namespace Accumulator

namespace Machine

variable {P Q : Machine → Instr → Prop} {code : List Instr} {m m' m'' : Machine} {n k : Nat}

/-- Code has one outcome. The machine and the flags decide at each jump which way it goes, so two
runs of the code go the same way. -/
theorem Exec.unique (h : Exec P code m n m') (h' : Exec Q code m k m'') : m' = m'' := by
  -- On the first run. The instruction decides which step the second one can take, and at a jump the
  -- flags do.
  induction h generalizing k with
  | done m =>
    cases h'
    rfl
  | halt _ =>
    cases h' with
    | halt _ => rfl
    | step _ hi _ _ => cases hi
  | skip _ hcond _ ih =>
    cases h' with
    | skip _ _ h' => exact ih h'
    | pass _ hcond' _ => rw [hcond] at hcond'; cases hcond'
    | step _ hi _ _ => cases hi
  | pass _ hcond _ ih =>
    cases h' with
    | skip _ hcond' _ => rw [hcond] at hcond'; cases hcond'
    | pass _ _ h' => exact ih h'
    | step _ hi _ _ => cases hi
  | step _ hi hstep _ ih =>
    cases h' with
    | halt _ => cases hi
    | skip _ _ _ => cases hi
    | pass _ _ _ => cases hi
    | step _ _ hstep' h' =>
      rw [hstep] at hstep'
      cases hstep'
      exact ih h'

/-- Everything but the two bytes below the stack pointer. -/
def Above (m : Machine) (a : Word) : Prop :=
  a ≠ m.sp - 2 ∧ a ≠ m.sp - 1

/-- Code that computes, whatever the data are as long as they include what it reads, has one
outcome, and it changes nothing but registers and the two bytes below the stack pointer. -/
theorem exists_walks {R : Registers Byte → Prop} {read : Word → Prop}
    (hread : ∀ a, read a → m.Above a)
    (h : ∀ data, (∀ a, read a → data a) → Unmarked data m → ∃ rs, R rs ∧ Computes data code m rs) :
    ∃ m', (∀ data, (∀ a, read a → data a) → Unmarked data m → Walks data code m m') ∧
      Changes m.Above m'.registers m m' ∧ R m'.registers := by
  obtain ⟨rs, hR, m', hwalks, hchanges⟩ := h m.Above hread fun _ ha => ha
  obtain ⟨n, -, hexec⟩ := hwalks.exec
  refine ⟨m', fun data hsub hdata => ?_, hchanges.registers ▸ hchanges, hchanges.registers ▸ hR⟩
  obtain ⟨_, -, m'', hwalks', -⟩ := h data hsub hdata
  obtain ⟨k, -, hexec'⟩ := hwalks'.exec
  rwa [hexec.unique hexec']

end Machine

namespace Select

open RegisterFile Machine

variable {ρ : Valuation} {s s' : State} {m m' : Machine} {v result : Value} {o : Operation}
  {data : Word → Prop}

/-! ## Places -/

/-- A literal below zero. It is narrower in a register than in a pair. -/
def isNegative : Value → Bool
  | .of (.const c) => c < 0
  | _ => false

/-- The record says that a value can be read at a location. -/
def State.has (s : State) : Location → Value → Bool
  | .reg r, v => r ≠ .m && s.regs.get r = .scalar v
  | .pair p, v =>
    s.regs.pairMatch? p v = some .full ||
      (s.regs.pairMatch? p v = some .extended && s.isByte v && !isNegative v)

/-- The record says that all operands are in their places. -/
def Operation.isPlaced (o : Operation) (s : State) : Bool :=
  o.reads.all fun (location, v) => s.has location v

/-- The byte that HL points at. -/
def Location.isMemory : Location → Bool
  | .reg .m => true
  | _ => false

/-- The record says that a value can be read at a location, which may be memory for an operand of
the current triple. -/
def State.offers (s : State) (l : Location) (v : Value) : Bool :=
  s.has l v || (l.isMemory && s.isPinned v && s.isAtM v)

/-- The record says that all operands can be read where the operation reads them. -/
def Operation.isOffered (o : Operation) (s : State) : Bool :=
  o.reads.all fun read => s.offers read.1 read.2

theorem Operation.isOffered_of_isPlaced (h : o.isPlaced s = true) : o.isOffered s = true := by
  simp only [isPlaced, isOffered, List.all_eq_true] at h ⊢
  intro read hread
  rw [State.offers, h read hread, Bool.true_or]

theorem get_of_has {r : Reg} (h : s.regs.Describes ρ m.registers)
    (hhas : s.has (.reg r) v = true) : r ≠ .m ∧ m.registers.get r = lowOf ρ v := by
  simp only [State.has, Bool.and_eq_true, decide_eq_true_eq] at hhas
  exact ⟨hhas.1, h.byte hhas.1 hhas.2⟩

/-- A literal that is a byte and not negative has nothing above its low byte. -/
theorem high_part_literal {c : Int} (hbyte : Width.ofConstant c = .byte) (hc : ¬c < 0) :
    Side.high.part (BitVec.ofInt 16 c) = 0 := by
  have hle : c ≤ 255 := by
    unfold Width.ofConstant at hbyte
    split at hbyte
    next h => omega
    next => cases hbyte
  apply BitVec.eq_of_toNat_eq
  show ((BitVec.ofInt 16 c).extractLsb' 8 8).toNat = 0
  rw [BitVec.extractLsb'_toNat, BitVec.toNat_ofInt]
  omega

/-- A pair that has a value holds the word of it. Either both halves are recorded, or a byte with
zero above it, and then the value itself must have zero above. -/
theorem pair_of_has {p : Pair} (h : Agrees ρ s m) (hhas : s.has (.pair p) v = true) :
    m.pair p = ρ v := by
  simp only [State.has, Bool.or_eq_true, Bool.and_eq_true, decide_eq_true_eq,
    Bool.not_eq_true'] at hhas
  cases hp : p.halves? with
  | none => simp [pairMatch?, hp] at hhas
  | some halves =>
    obtain ⟨high, low⟩ := halves
    have hne := Pair.halves?_ne hp
    rw [Machine.pair_of_halves? hp]
    -- The pair has the word in full, or a byte with zero above it.
    obtain hfull | ⟨⟨hextended, hbyte⟩, hnegative⟩ := hhas
    · have hget : s.regs.get high = .half v .high ∧ s.regs.get low = .half v .low := by
        simp only [pairMatch?, hp] at hfull
        split at hfull
        next h => exact h
        next => split at hfull <;> cases hfull
      rw [h.registers.half hne.1 hget.1, h.registers.half hne.2.1 hget.2, Side.append_parts]
    · have hget : s.regs.get high = .scalar (.const 0) ∧ s.regs.get low = .scalar v := by
        simp only [pairMatch?, hp] at hextended
        split at hextended
        next => cases hextended
        next =>
          split at hextended
          next h => exact h
          next => cases hextended
      -- A byte has nothing above it: a literal because it is not negative, anything else by its
      -- width.
      have hzero : Side.high.part (ρ v) = 0 := by
        cases v with
        | addr u => cases hbyte
        | of u =>
          cases u with
          | const c =>
            rw [show ρ (.of (.const c)) = BitVec.ofInt 16 c from h.literal c]
            refine high_part_literal ?_ (by simpa [isNegative] using hnegative)
            exact of_decide_eq_true hbyte
          | var name => exact h.extended _ rfl hbyte
          | temp id => exact h.extended _ rfl hbyte
      rw [h.registers.byte hne.1 hget.1, h.registers.byte hne.2.1 hget.2, h.literal]
      rw [show Side.low.part (BitVec.ofInt 16 0) = 0 from rfl, ← hzero, Side.append_parts]

/-! ## Records -/

theorem low_part_setWidth (b : Byte) : Side.low.part (b.setWidth 16) = b := by
  rw [low_part_eq, BitVec.setWidth_setWidth_of_le _ (by decide), BitVec.setWidth_eq]

section Records

variable {rf : RegisterFile} {rs : Registers Byte} {x : Byte}

theorem Describes.bindAccumulator (h : rf.Describes ρ rs) (hx : ρ result = x.setWidth 16) :
    (rf.bind .a result).Describes ρ { rs with a := x } :=
  h.bind (by decide) (by rw [hx, low_part_setWidth])

theorem Describes.bindHL (h : rf.Describes ρ rs) :
    (rf.bindPair .h result).Describes ρ (withHL rs (ρ result)) :=
  h.bindPair (p := .h) rfl

theorem Describes.clearAccumulator (h : rf.Describes ρ rs) :
    (rf.clear .a).Describes ρ { rs with a := x } :=
  h.clear_set (r := .a) (by decide)

/-- A count that was used up is zero, and is recorded as such. -/
theorem Describes.zeroCount (h : rf.Describes ρ rs) (hzero : ρ (.const 0) = 0) :
    (rf.bind .c (.const 0)).Describes ρ { rs with c := 0 } :=
  h.bind (r := .c) (by decide) (by rw [hzero]; rfl)

/-- What is recorded after a call has words in whole pairs only. -/
theorem matched_afterCall (h : rf.Matched) (routine : Routine) :
    (Operation.afterCall routine rf).Matched := by
  have hcleared (rs : List Reg) : (rs.foldl (·.clear ·) rf).Matched := by
    induction rs generalizing rf with
    | nil => exact h
    | cons r rs ih => exact ih h.clear
  unfold Operation.afterCall
  dsimp only
  split
  · exact (hcleared _).bind
  · exact hcleared _

/-- So has what is recorded after an operation. -/
theorem matched_update (h : rf.Matched) : (o.update result rf).Matched := by
  have hcall (routine : Routine) := matched_afterCall h routine
  cases o <;> simp only [Operation.update] <;>
    first
    | exact h.bind
    | exact h.bindPair
    | exact h.clear.bindPair
    | exact (hcall _).bind
    | exact (hcall _).bindPair

/-- A shift of a byte destroys the accumulator and the count. -/
theorem describes_afterShift (h : rf.Describes ρ rs) (hzero : ρ (.const 0) = 0) (left : Bool) :
    (Operation.afterCall (Operation.shiftRoutine left) rf).Describes ρ { rs with c := 0 } := by
  cases left with
  | false =>
    show (((rf.clear .a).clear .c).bind .c (.const 0)).Describes ρ _
    exact Describes.zeroCount h.clear.clear hzero
  | true =>
    show (((rf.clear .a).clear .c).bind .c (.const 0)).Describes ρ _
    exact Describes.zeroCount h.clear.clear hzero

/-- The routine that subtracts destroys the accumulator, and the record says so. -/
theorem describes_afterDifference (h : rf.Describes ρ rs) :
    (Operation.afterCall .subtractWord rf).Describes ρ { rs with a := x } := by
  show (((rf.clear .a).clear .h).clear .l).Describes ρ _
  exact (Describes.clearAccumulator h).clear.clear

end Records

/-! ## Operations -/

/-- A value can be read at a location: the record says so, or it is the byte that HL points at. -/
def Finds (ρ : Valuation) (data : Word → Prop) (s : State) (m : Machine)
    (l : Location) (v : Value) :
    Prop :=
  s.has l v = true ∨ l = .reg .m ∧ m.memory.read m.hl = lowOf ρ v ∧ data m.hl

theorem Finds.mono {read : Word → Prop} {l : Location} (h : Finds ρ read s m l v)
    (hdata : ∀ a, read a → data a) : Finds ρ data s m l v :=
  h.imp id fun ⟨hl, hbyte, hread⟩ => ⟨hl, hbyte, hdata _ hread⟩

theorem Finds.has_reg {r : Reg} (h : Finds ρ data s m (.reg r) v) (hr : r ≠ .m) :
    s.has (.reg r) v = true := by
  obtain h | ⟨⟨⟩, -⟩ := h
  · exact h
  · exact absurd rfl hr

theorem Finds.has_pair {p : Pair} (h : Finds ρ data s m (.pair p) v) :
    s.has (.pair p) v = true := by
  obtain h | ⟨hl, -⟩ := h
  · exact h
  · cases hl

/-- What is offered is found. -/
theorem finds_of_offers {l : Location} (h : Agrees ρ s m) (hoffers : s.offers l v = true) :
    Finds ρ (Provided ρ s m) s m l v := by
  simp only [State.offers, Bool.or_eq_true, Bool.and_eq_true] at hoffers
  refine hoffers.imp id fun ⟨⟨hmemory, hpinned⟩, hatM⟩ => ?_
  have hl : l = .reg .m := by
    cases l with
    | pair _ => cases hmemory
    | reg r => cases r <;> first | rfl | cases hmemory
  obtain ⟨o, rfl, hpair, hreads⟩ := read_of_isAtM h (by simpa [State.isPinned] using hpinned) hatM
  have hhl : m.hl = ρ (.addr o) := pair_of_pairValue? (p := .h) h.registers hpair
  rw [hhl]
  exact ⟨hl, hreads.read, hreads.provided⟩

/-- A second operand that is found where the operation reads it has the low byte of its value. If it
is in memory, the access is within the data. -/
theorem value_of_gives {source : Source} {y : Value} (h : Agrees ρ s m) (hgives : source.Gives y)
    (hplaced : ∀ read ∈ source.reads y, Finds ρ data s m read.1 read.2) :
    source.value m = lowOf ρ y ∧ source.Within data m := by
  cases source with
  | imm value =>
    obtain ⟨c, rfl, rfl⟩ := hgives
    exact ⟨(lowOf_const h.literal c).symm, trivial⟩
  | reg r =>
    obtain hhas | ⟨⟨⟩, hbyte, hdata⟩ := hplaced (.reg r, y) (by simp [Source.reads])
    · obtain ⟨hne, hget⟩ := get_of_has h.registers hhas
      refine ⟨(Machine.get_of_ne hne).trans hget, ?_⟩
      cases r <;> first | exact absurd rfl hne | trivial
    · exact ⟨hbyte, hdata⟩

/-- With its operands in their places, an operation computes its result, and the record afterwards
is right. By cases on the operation; each is a list of instructions whose effect on the registers is
known. -/
theorem Operation.computes (h : Agrees ρ s m) (hvalid : o.Valid)
    (hread : ∀ read ∈ o.reads, Finds ρ data s m read.1 read.2)
    (hresult : ρ result = o.result ρ) (hdata : Unmarked data m) :
    ∃ rs, (o.update result s.regs).Describes ρ rs ∧ Computes data o.code m rs := by
  have hzero : ρ (.const 0) = 0 := h.literal 0
  have hacc {x : Value} (hx : (Location.reg .a, x) ∈ o.reads) : m.registers.a = lowOf ρ x :=
    (get_of_has h.registers ((hread _ hx).has_reg (by decide))).2
  have hcount {x : Value} (hx : (Location.reg .c, x) ∈ o.reads) : m.registers.c = lowOf ρ x :=
    (get_of_has h.registers ((hread _ hx).has_reg (by decide))).2
  have hpair {p : Pair} {x : Value} (hx : (Location.pair p, x) ∈ o.reads) : m.pair p = ρ x :=
    pair_of_has h (hread _ hx).has_pair
  cases o with
  | keep x =>
    refine ⟨{ m.registers with a := m.registers.a }, Describes.bindAccumulator h.registers ?_,
      .nil _ _⟩
    rw [hresult, hacc (x := x) (by simp [reads])]
    rfl
  | invert x =>
    refine ⟨_, Describes.bindAccumulator h.registers ?_, computes_inverse m⟩
    rw [hresult, hacc (x := x) (by simp [reads])]
    rfl
  | shiftOne left x =>
    refine ⟨_, Describes.bindAccumulator h.registers ?_, computes_shiftOne left m⟩
    rw [hresult, hacc (x := x) (by simp [reads])]
    cases left <;> rfl
  | shift left x count =>
    refine ⟨_, ?_, computes_callByteShift left hdata⟩
    refine Describes.bindAccumulator (describes_afterShift h.registers hzero left) ?_
    rw [hresult, hacc (x := x) (by simp [reads]), hcount (x := count) (by simp [reads])]
    cases left <;> rfl
  | combine op x source y =>
    obtain ⟨hvalue, hwithin⟩ := value_of_gives h hvalid.2
      (fun read hmem => hread read (by simp [reads, hmem]))
    refine ⟨_, Describes.bindAccumulator h.registers ?_, computes_source hvalid.1 hwithin⟩
    rw [hresult, hvalue, hacc (x := x) (by simp [reads])]
    rfl
  | subtractFrom x source y =>
    obtain ⟨hvalue, hwithin⟩ := value_of_gives h hvalid.2
      (fun read hmem => hread read (by simp [reads, hmem]))
    -- The accumulator cannot be both operands.
    have hsource : source ≠ .reg .a := by
      rintro rfl
      have hx := (hread (.reg .a, x) (by simp [reads])).has_reg (by decide)
      have hy := (hread (.reg .a, y) (by simp [reads, Source.reads])).has_reg (by decide)
      simp only [State.has, Bool.and_eq_true, decide_eq_true_eq] at hx hy
      exact hvalid.1 (by simpa using hx.2.symm.trans hy.2)
    refine ⟨_, Describes.bindAccumulator h.registers ?_, computes_subtractFrom hsource hwithin⟩
    rw [hresult, hvalue, hacc (x := x) (by simp [reads])]
    rfl
  | compare cond x source y =>
    obtain ⟨hvalue, hwithin⟩ := value_of_gives h hvalid
      (fun read hmem => hread read (by simp [reads, hmem]))
    refine ⟨_, Describes.bindAccumulator h.registers ?_, computes_compare cond hwithin⟩
    rw [hresult, hvalue, hacc (x := x) (by simp [reads])]
    rfl
  | invertWord x =>
    obtain ⟨a, hcomputes⟩ := @computes_inverseWord data m
    refine ⟨_, ?_, hcomputes⟩
    have hhl : ~~~m.hl = ρ result := by
      rw [hresult, show m.hl = m.pair .h from rfl, hpair (x := x) (by simp [reads])]
      rfl
    rw [hhl]
    exact Describes.bindHL (Describes.clearAccumulator h.registers)
  | double n x =>
    refine ⟨_, ?_, computes_doublings n m⟩
    have hhl : m.hl <<< n = ρ result := by
      rw [hresult, show m.hl = m.pair .h from rfl, hpair (x := x) (by simp [reads])]
      rfl
    rw [hhl]
    exact Describes.bindHL h.registers
  | shiftWord left x count =>
    have hhl : shiftBits left m.hl m.registers.c.toNat = ρ result := by
      rw [hresult, show m.hl = m.pair .h from rfl, hpair (x := x) (by simp [reads]),
        hcount (x := count) (by simp [reads])]
      rfl
    cases left with
    | true =>
      obtain ⟨carry, hcall⟩ := call_shiftLeftWord m
      refine ⟨_, ?_, .of_call hdata hcall⟩
      rw [show m.hl <<< m.registers.c.toNat = ρ result from hhl]
      show (((((s.regs.clear .h).clear .l).clear .c).bind .c (.const 0)).bindPair .h
        result).Describes
        ρ _
      exact Describes.bindHL (Describes.zeroCount h.registers.clear.clear.clear hzero)
    | false =>
      obtain ⟨carry, a, hcall⟩ := call_shiftRightWord m
      refine ⟨_, ?_, .of_call hdata hcall⟩
      rw [show m.hl >>> m.registers.c.toNat = ρ result from hhl]
      show ((((((s.regs.clear .a).clear .h).clear .l).clear .c).bind .c (.const 0)).bindPair .h
        result).Describes ρ _
      exact Describes.bindHL
        (Describes.zeroCount (Describes.clearAccumulator h.registers).clear.clear.clear hzero)
  | addWord p x y =>
    have hp : p ≠ .sp := by
      rintro rfl
      simp [Valid] at hvalid
    refine ⟨_, ?_, computes_addPair hp m⟩
    have hhl : m.hl + m.pair p = ρ result := by
      rw [hresult, show m.hl = m.pair .h from rfl, hpair (x := x) (by simp [reads]),
        hpair (p := p) (x := y) (by simp [reads])]
      rfl
    rw [hhl]
    exact Describes.bindHL h.registers
  | combineWord op p x y =>
    obtain ⟨hbits, hp⟩ := hvalid
    obtain ⟨high, low, hhalves, hne⟩ : ∃ high low, p.halves? = some (high, low) ∧ p ≠ .h := by
      obtain rfl | rfl := hp
      · exact ⟨.d, .e, rfl, by decide⟩
      · exact ⟨.b, .c, rfl, by decide⟩
    obtain ⟨a, hcomputes⟩ := @computes_bitwisePair data op p high low hbits hhalves hne m
    have hhl : bitwise op m.hl (m.pair p) = ρ result := by
      rw [hresult, show m.hl = m.pair .h from rfl, hpair (x := x) (by simp [reads]),
        hpair (p := p) (x := y) (by simp [reads])]
      rfl
    rw [hhl] at hcomputes
    refine ⟨{ withHL m.registers (ρ result) with a := a },
      Describes.bindHL (Describes.clearAccumulator h.registers), ?_⟩
    simp only [code, hhalves, Option.elim_some]
    exact hcomputes
  | combineLiteral op x c =>
    obtain ⟨a, hcomputes⟩ := @computes_bitwiseLiteral data op hvalid c m
    have hhl : bitwise op m.hl (BitVec.ofInt 16 c) = ρ result := by
      rw [hresult, show m.hl = m.pair .h from rfl, hpair (x := x) (by simp [reads])]
      rfl
    rw [hhl] at hcomputes
    exact ⟨_, Describes.bindHL (Describes.clearAccumulator h.registers), hcomputes⟩
  | subtractWord x y =>
    have hhl : m.hl - m.pair .d = ρ result := by
      rw [hresult, show m.hl = m.pair .h from rfl, hpair (x := x) (by simp [reads]),
        hpair (p := .d) (x := y) (by simp [reads])]
      rfl
    have hcomputes := computes_subtractWords hdata
    rw [hhl] at hcomputes
    exact ⟨_, Describes.bindHL (describes_afterDifference h.registers), hcomputes⟩
  | compareWord cond x y =>
    refine ⟨_, ?_, computes_compareWords cond hdata⟩
    have hcleared : (afterCall .subtractWord s.regs).Describes ρ
        (withHL m.registers (m.hl - m.pair .d)) := by
      show (((s.regs.clear .a).clear .h).clear .l).Describes ρ _
      have hhigh := (h.registers.clear (r := .a)).clear_set (r := .h)
        (x := (m.hl - m.pair .d).extractLsb' 8 8) (by decide)
      exact hhigh.clear_set (r := .l) (x := (m.hl - m.pair .d).extractLsb' 0 8) (by decide)
    refine Describes.bindAccumulator hcleared ?_
    rw [hresult, show m.hl = m.pair .h from rfl, hpair (x := x) (by simp [reads]),
      hpair (p := .d) (x := y) (by simp [reads])]
    rfl

/-- Outside the stack, and in the save slot, nothing is marked. -/
theorem above_of_not_mem {a : Word} (ha : a ∉ stackArea (s.stackBase m)) : m.Above a := by
  simp only [State.stackBase, stackArea, List.mem_cons, List.not_mem_nil, or_false, not_or] at ha
  refine ⟨?_, ?_⟩
  · split at ha <;> bv_omega
  · split at ha <;> bv_omega

/-- The machine that has computed agrees with a record that is right about its registers. -/
theorem agrees_of_computes {read : Word → Prop} {code : List Instr} {rf : RegisterFile}
    (h : Agrees ρ s m) (hread : ∀ a, read a → a ∉ stackArea (s.stackBase m))
    (hcomputes : ∀ data, (∀ a, read a → data a) → Unmarked data m →
      ∃ rs, rf.Describes ρ rs ∧ Computes data code m rs) :
    ∃ m', (∀ data, (∀ a, read a → data a) → Unmarked data m → Walks data code m m') ∧
      Frame s m { s with code := s.code ++ code, regs := rf } m' ∧
      Agrees ρ { s with code := s.code ++ code, regs := rf } m' := by
  obtain ⟨m', hwalks, hchanges, hdescribes⟩ :=
    exists_walks (fun a ha => above_of_not_mem (hread a ha)) hcomputes
  have hframe : Frame s m { s with code := s.code ++ code, regs := rf } m' := by
    refine ⟨rfl, rfl, rfl, rfl, hchanges.addresses, ?_, fun a ha => ?_⟩
    · simp only [State.stackBase, hchanges.sp]
    · exact hchanges.memory a (above_of_not_mem ha)
  refine ⟨m', hwalks, hframe,
    { h.toSurroundings.of_frame hframe with registers := hdescribes, saved := ?_ }⟩
  intro slot hslot
  have hword : m'.memory.readWord m.sp = m.memory.readWord m.sp := by
    simp only [Memory.readWord]
    rw [hchanges.memory m.sp ⟨by bv_omega, by bv_omega⟩,
      hchanges.memory (m.sp + 1) ⟨by bv_omega, by bv_omega⟩]
  rw [hchanges.sp, hword]
  exact h.saved slot hslot

end Select

end Accumulator
