import Mathlib.Tactic.Common
import Accumulator.Proofs.Select.Evaluation

/-!
# Counting, elements and pointers

Increments and decrements, elements of arrays, addresses and what pointers point at: if the operand
ends up where the code reads it, the machine still agrees with the record afterwards. What these
triples leave behind is the outcome of a sum in the accumulator or in HL, or an address.
-/

namespace Accumulator.Select

open Machine RegisterFile

variable {ρ : Valuation} {data : Word → Prop} {m₀ m m' : Machine} {memory : Memory}
  {s s' : State} {t : Triple} {v u : Value} {base : String} {α : Type}

/-! ## Steps behind code that has arrived -/

/-- What memory provides does not change in the middle of a triple, since stores come only at the
end of one. -/
theorem Arrives.provided_of_frame (h : Arrives ρ data m₀ memory s m)
    (h' : Arrives ρ data m₀ memory s' m') (hframe : Frame s m s' m')
    (hprovided : ∀ a, Provided ρ s m₀ a → data a) : ∀ a, Provided ρ s' m₀ a → data a :=
  fun a ha => hprovided a (h.provided_iff.mp (hframe.provided (h'.provided_iff.mpr ha)))

/-- The code goes on to the state, which is in the middle of the same triple. -/
def Continues (ρ : Valuation) (data : Word → Prop) (m₀ : Machine) (memory : Memory) (s : State)
    (m : Machine) (s' : State) : Prop :=
  ∃ m', Arrives ρ data m₀ memory s' m' ∧ Frame s m s' m'

section Steps

variable (h : Arrives ρ data m₀ memory s m) (hdata : ∀ a, data a → a ∉ stackArea m₀.sp)
  (hprovided : ∀ a, Provided ρ s m₀ a → data a)

include h hdata hprovided

/-- A step that the machine follows without touching memory leads on from where the code has
arrived. -/
theorem Arrives.continues (hleads : Leads ρ s m s' m') : Continues ρ data m₀ memory s m s' :=
  ⟨m', h.leads hdata hprovided hleads, hleads.frame⟩

/-- Code behind a step that the machine follows, if the step ends as `P` says. The code may change
registers only, and the record is updated with it. -/
theorem Arrives.after_change {x : Selecting α} {code : List Instr} {f : RegisterFile → RegisterFile}
    {P : State → Prop} (hx : Follows ρ s x) (hplaced : After x s fun _ s' => P s')
    (hmatched : ∀ rf : RegisterFile, rf.Matched → (f rf).Matched)
    (hcomputes : ∀ s' m' data, Agrees ρ s' m' → P s' →
      ∃ rs, (f s'.regs).Describes ρ rs ∧ Computes data code m' rs) :
    After x s fun _ s' =>
      Continues ρ data m₀ memory s m { s' with code := s'.code ++ code, regs := f s'.regs } := by
  refine (After.and (hx s m ⟨rfl, rfl, rfl⟩ h.agrees h.matched) hplaced).mono ?_
  rintro _ s₁ ⟨⟨m₁, hleads, -⟩, hP⟩
  have h₁ := h.leads hdata hprovided hleads
  have hnone : ∀ a, (fun _ : Word => False) a → data a := fun _ hfalse => hfalse.elim
  obtain ⟨m₂, h₂, hframe⟩ := h₁.computes hdata hnone (hmatched _ h₁.matched)
    fun data' _ _ => hcomputes s₁ m₁ data' h₁.agrees hP
  exact ⟨m₂, h₂, hleads.frame.trans hframe⟩

end Steps

/-! ## Counting -/

/-- What counting up or down gives, at the width of the triple. The right operand of a count, if
there is one, says how often it is repeated. -/
theorem combine?_counting {t : Triple} {x w : Word} (hop : t.op = .inc ∨ t.op = .dec)
    (hresult : ∃ z, t.combine? [x] = some z ∧ w = z.setWidth 16) :
    (t.width = .byte → w = (if t.op = .inc then x.setWidth 8 + BitVec.ofNat 8 t.repetitions
        else x.setWidth 8 - BitVec.ofNat 8 t.repetitions).setWidth 16) ∧
      (t.width = .word → w = if t.op = .inc then x + BitVec.ofNat 16 t.repetitions
        else x - BitVec.ofNat 16 t.repetitions) := by
  obtain ⟨z, hz, rfl⟩ := hresult
  generalize hn : t.repetitions = n
  simp only [Triple.combine?, hn] at hz
  -- The width decides the type of the number, so the triple is taken apart before its width is
  -- split.
  obtain ⟨id, lhs, op, rhs, width, addressOnly, noSave, throughPointer⟩ := t
  dsimp only at hop hz z ⊢
  obtain rfl | rfl := hop
  · cases width with
    | byte => exact ⟨fun _ => by rw [← Option.some.inj hz]; rfl, fun h => (by cases h)⟩
    | word =>
      refine ⟨fun h => (by cases h), fun _ => ?_⟩
      rw [← Option.some.inj hz]
      show (BitVec.setWidth 16 x + BitVec.ofNat 16 n).setWidth 16 = x + BitVec.ofNat 16 n
      rw [BitVec.setWidth_eq, BitVec.setWidth_eq]
  · cases width with
    | byte => exact ⟨fun _ => by rw [← Option.some.inj hz]; rfl, fun h => (by cases h)⟩
    | word =>
      refine ⟨fun h => (by cases h), fun _ => ?_⟩
      rw [← Option.some.inj hz]
      show (BitVec.setWidth 16 x - BitVec.ofNat 16 n).setWidth 16 = x - BitVec.ofNat 16 n
      rw [BitVec.setWidth_eq, BitVec.setWidth_eq]
section Counting

variable (h : Arrives ρ data m₀ memory s m) (hdata : ∀ a, data a → a ∉ stackArea m₀.sp)
  (hprovided : ∀ a, Provided ρ s m₀ a → data a) (hpins : s.PinsAddresses)

include h hdata hprovided hpins

/-- A byte is changed in the accumulator. It is loaded so that the original may be lost, and the
result takes its place in the record. -/
theorem Arrives.after_changeByte {code : List Instr} {g : Byte → Byte} (hv : v ∈ s.pinned)
    (hcode : ∀ data m, Computes data code m { m.registers with a := g m.registers.a })
    (hresult : ρ u = (g (lowOf ρ v)).setWidth 16)
    (hplaced : After (loadForChange v) s fun _ s' => s'.has (.reg .a) v = true) :
    After (do loadForChange v; emitAll code; record (·.bind .a u)) s fun _ s' =>
      Continues ρ data m₀ memory s m s' := by
  simp only [after_bind, after_emitAll, after_record]
  refine h.after_change hdata hprovided (follows_loadForChange hpins hv) hplaced
    (fun _ hmatched => hmatched.bind) fun s' m' data' hagrees hhas => ?_
  refine ⟨_, Describes.bindAccumulator hagrees.registers ?_, hcode data' m'⟩
  have hacc : m'.registers.a = lowOf ρ v := (get_of_has hagrees.registers hhas).2
  rw [hresult, hacc]

/-- A word is changed in HL, in the same way as a byte in the accumulator. -/
theorem Arrives.after_changeWord {code : List Instr} {g : Word → Word} (hv : v ∈ s.pinned)
    (hcode : ∀ data (m : Machine), Computes data code m (withHL m.registers (g m.hl)))
    (hresult : ρ u = g (ρ v))
    (hplaced : After (loadHLForChange v) s fun _ s' => s'.has (.pair .h) v = true) :
    After (do loadHLForChange v; emitAll code; record (·.bindPair .h u)) s fun _ s' =>
      Continues ρ data m₀ memory s m s' := by
  simp only [after_bind, after_emitAll, after_record]
  refine h.after_change hdata hprovided (follows_loadHLForChange hpins hv) hplaced
    (fun _ hmatched => hmatched.bindPair) fun s' m' data' hagrees hhas => ?_
  have hhl : m'.hl = ρ v := pair_of_has (p := .h) hagrees hhas
  have hcomputes := hcode data' m'
  rw [hhl, ← hresult] at hcomputes
  exact ⟨_, Describes.bindHL hagrees.registers, hcomputes⟩

/-- An increment or a decrement, of a byte in the accumulator or of a word in HL, as often as the
triple says. -/
theorem Arrives.after_counting (hop : t.op = .inc ∨ t.op = .dec) (hv : .of t.lhs ∈ s.pinned)
    (hresult : ∃ z, t.combine? [ρ (.of t.lhs)] = some z ∧ ρ (.temp t.id) = z.setWidth 16)
    (hbyte : t.width = .byte →
      After (loadForChange (.of t.lhs)) s fun _ s' => s'.has (.reg .a) (.of t.lhs) = true)
    (hword : t.width = .word →
      After (loadHLForChange (.of t.lhs)) s fun _ s' => s'.has (.pair .h) (.of t.lhs) = true) :
    After (selectTriple t) s fun _ s' => Continues ρ data m₀ memory s m s' := by
  obtain ⟨hvalueByte, hvalueWord⟩ := combine?_counting hop hresult
  -- Four cases, for the two widths and directions. They differ in the function that the code
  -- computes.
  cases hwidth : t.width with
  | byte =>
    have hvalue := hvalueByte hwidth
    rw [← lowOf_eq] at hvalue
    obtain hop | hop := hop
    · simp only [hop, if_true] at hvalue
      simp only [selectTriple, hop, hwidth, selectByte]
      exact h.after_changeByte hdata hprovided hpins (g := (· + BitVec.ofNat 8 t.repetitions)) hv
        (fun _ => computes_increments _) hvalue (hbyte hwidth)
    · simp only [hop, reduceCtorEq, if_false] at hvalue
      simp only [selectTriple, hop, hwidth, selectByte]
      exact h.after_changeByte hdata hprovided hpins (g := (· - BitVec.ofNat 8 t.repetitions)) hv
        (fun _ => computes_decrements _) hvalue (hbyte hwidth)
  | word =>
    have hvalue := hvalueWord hwidth
    obtain hop | hop := hop
    · simp only [hop, if_true] at hvalue
      simp only [selectTriple, hop, hwidth, selectWord]
      exact h.after_changeWord hdata hprovided hpins (g := (· + BitVec.ofNat 16 t.repetitions)) hv
        (fun _ => computes_incrementPair _) hvalue (hword hwidth)
    · simp only [hop, reduceCtorEq, if_false] at hvalue
      simp only [selectTriple, hop, hwidth, selectWord]
      exact h.after_changeWord hdata hprovided hpins (g := (· - BitVec.ofNat 16 t.repetitions)) hv
        (fun _ => computes_decrementPair _) hvalue (hword hwidth)

end Counting

/-! ## Pointers -/

/-- The check of a pointer emits nothing; it only stops the selection for a byte variable. -/
theorem after_requirePointer {Q : Unit → State → Prop} (hQ : Q ⟨⟩ s) :
    After (requirePointer t) s Q := by
  unfold requirePointer
  split
  · simp only [after_bind, after_get]
    exact after_ite (fun _ => after_reject _) fun _ => (after_pure _).mpr hQ
  · exact (after_pure _).mpr hQ

/-- HL, which points somewhere, gets another name for that. No register changes. -/
theorem Describes.renameHL {rf : RegisterFile} (h : rf.Describes ρ m.registers)
    (hhl : m.pair .h = ρ u) : (rf.bindPair .h u).Describes ρ m.registers := by
  have hbound : (rf.bindPair .h u).Describes ρ (withHL m.registers (ρ u)) := Describes.bindHL h
  rwa [← hhl, show withHL m.registers (m.pair .h) = m.registers from withHL_self _] at hbound

/-- What a pointer points at: the pointer is the address, so loading the pointer and renaming it in
the record is all there is to do. -/
theorem Arrives.after_deref (h : Arrives ρ data m₀ memory s m)
    (hdata : ∀ a, data a → a ∉ stackArea m₀.sp) (hprovided : ∀ a, Provided ρ s m₀ a → data a)
    (hpins : s.PinsAddresses) (hop : t.op = .deref) (hv : .of t.lhs ∈ s.pinned)
    (haddress : ρ (.addr (.temp t.id)) = ρ (.of t.lhs))
    (hplaced : After (loadHLForChange (.of t.lhs)) s fun _ s' =>
      s'.has (.pair .h) (.of t.lhs) = true) :
    After (selectTriple t) s fun _ s' => Continues ρ data m₀ memory s m s' := by
  have hselect : selectTriple t = selectDeref t := by
    simp only [selectTriple, hop]
  have hload : After (loadHLForChange (.of t.lhs)) s fun _ s' => Continues ρ data m₀ memory s m
      { s' with code := s'.code ++ [], regs := s'.regs.bindPair .h (.addr (.temp t.id)) } :=
    h.after_change hdata hprovided (f := (·.bindPair .h (.addr (.temp t.id))))
      (follows_loadHLForChange hpins hv) hplaced (fun _ hmatched => hmatched.bindPair)
      fun s' m' data' hagrees hhas => ⟨_, Describes.renameHL hagrees.registers
        ((pair_of_has hagrees hhas).trans haddress.symm), .nil data' m'⟩
  rw [hselect, selectDeref, after_bind]
  refine after_requirePointer ?_
  simp only [loadHLForChange, after_bind, after_record, List.append_nil] at hload ⊢
  exact hload

/-! ## Elements -/

/-- The code that turns a position into a distance. -/
def scaling : Width → List Instr
  | .word => [.dad .h]
  | .byte => []

/-- The position of an element becomes a distance in bytes: HL is doubled for words and left alone
for bytes. -/
theorem computes_scaling (width : Width) (m : Machine) :
    Computes data (scaling width) m (withHL m.registers (m.hl * BitVec.ofNat 16 width.size)) := by
  cases width with
  | byte =>
    rw [show m.hl * BitVec.ofNat 16 Width.byte.size = m.hl from BitVec.mul_one _,
      show withHL m.registers m.hl = m.registers from withHL_self _]
    exact .nil data m
  | word =>
    rw [show m.hl * BitVec.ofNat 16 Width.word.size = m.hl + m.pair .h from BitVec.mul_two]
    exact computes_addPair (p := .h) (by decide) m

/-- A pair that is free is emptied without code, so nothing moves when the start of an array is
loaded into it. -/
theorem after_vacatePair_of_isFree {p : Pair} {high low : Reg} {Q : Unit → State → Prop}
    (hp : p.halves? = some (high, low)) (hfree : s.isFree p = true)
    (hQ : Q ⟨⟩ { s with regs := s.regs.clearPair p }) : After (vacatePair p) s Q := by
  simp only [State.isFree, hp, List.all_cons, List.all_nil, Bool.and_true,
    Bool.and_eq_true] at hfree
  -- A value in one of the registers need not be kept.
  have hkeep {r : Reg} {v : Value} (hr : r = high ∨ r = low) (hv : (s.regs.get r).value? = some v) :
      s.mustKeep v [high, low] false = false := by
    obtain rfl | rfl := hr
    · simpa [hv] using (by simpa [hv] using hfree.1 : _ ∧ _).2
    · simpa [hv] using (by simpa [hv] using hfree.2 : _ ∧ _).2
  have hscalar {r : Reg} {Q : Unit → State → Prop} (hr : r = high ∨ r = low) (hQ : Q ⟨⟩ s) :
      After (keepScalar r [high, low] false) s Q := by
    simp only [keepScalar, after_bind, after_get]
    split
    next v hv =>
      simp only [keepByte, after_bind, after_get, hkeep hr (v := v) (by rw [hv]; rfl)]
      exact (after_pure _).mpr hQ
    next => exact (after_pure _).mpr hQ
  simp only [vacatePair, hp, after_bind, after_get]
  split
  next v hv =>
    obtain ⟨hhigh, -⟩ := (pairValue?_eq_some hp).mp hv
    simp only [hkeep (.inl rfl) (v := v) (by rw [hhigh]; rfl)]
    exact (after_pure _).mpr hQ
  next =>
    simp only [after_bind, after_record]
    exact hscalar (.inl rfl) (hscalar (.inr rfl) hQ)


/-- The address of an array is loaded into a pair and added to HL. The pair is lost. -/
theorem computes_addSymbol {p : Pair} {a : Word} (hp : p = .d ∨ p = .b)
    (himm : m.imm (.ofSymbol base) = .ok a) :
    Computes data [.lxi p (.ofSymbol base), .dad p] m
      (withHL (m.setPair p a).registers (m.hl + a)) := by
  have hpair : (m.setPair p a).hl = m.hl ∧ (m.setPair p a).pair p = a := by
    obtain rfl | rfl := hp
    · exact ⟨rfl, high_append_low a⟩
    · exact ⟨rfl, high_append_low a⟩
  have hload : [Instr.lxi p (.ofSymbol base)].foldlM Machine.execute m = .ok (m.setPair p a) := by
    simp only [List.foldlM, execute, himm]
    rfl
  have hwalks : Walks data [.lxi p (.ofSymbol base)] m (m.setPair p a) := by
    refine .single rfl (within_of_registers rfl rfl rfl) ?_
    show (m.imm (.ofSymbol base) >>= fun a => pure (m.setPair p a)) = _
    rw [himm]
    rfl
  have hchanges : Changes data (m.setPair p a).registers m (m.setPair p a) := by
    obtain rfl | rfl := hp
    · exact ⟨rfl, rfl, rfl, fun _ _ => rfl⟩
    · exact ⟨rfl, rfl, rfl, fun _ _ => rfl⟩
  have hadd : Computes data [.dad p] (m.setPair p a) _ :=
    computes_addPair (by obtain rfl | rfl := hp <;> decide) (m.setPair p a)
  rw [hpair.1, hpair.2] at hadd
  exact .append_walks hwalks hchanges hadd

/-- With no pair to spare, DE is pushed, used for the sum, and popped again. Only the two bytes
below the stack differ afterwards, and no data lies there. -/
theorem computes_addSymbol_saved {a : Word} (himm : m.imm (.ofSymbol base) = .ok a)
    (hdata : Unmarked data m) :
    Computes data [.push .d, .lxi .d (.ofSymbol base), .dad .d, .pop .d] m
      (withHL m.registers (m.hl + a)) := by
  have hload : (m.push (m.pair .d)).step (.lxi .d (.ofSymbol base)) =
      .ok ((m.push (m.pair .d)).setPair .d a) := by
    show ((m.push (m.pair .d)).imm (.ofSymbol base) >>= fun a =>
      pure ((m.push (m.pair .d)).setPair .d a)) = _
    rw [show (m.push (m.pair .d)).imm (.ofSymbol base) = .ok a from himm]
    rfl
  have hpop : (m.push (m.pair .d)).memory.readWord (m.sp - 2) = m.pair .d :=
    Memory.readWord_writeWord_self _ _ _
  -- The machine after the addition. DE still has the address there, and gets its contents back from
  -- the stack.
  let summed : Machine := { ((m.push (m.pair .d)).setPair .d a).setPair .h (m.hl + a) with
    carry := m.hl.uaddOverflow a }
  have hadd : ((m.push (m.pair .d)).setPair .d a).step (.dad .d) = .ok summed := by
    have hpair : ((m.push (m.pair .d)).setPair .d a).pair .d = a := high_append_low a
    show (Except.ok { ((m.push (m.pair .d)).setPair .d a).setPair .h
        (m.hl + ((m.push (m.pair .d)).setPair .d a).pair .d) with
        carry := m.hl.uaddOverflow (((m.push (m.pair .d)).setPair .d a).pair .d) } :
      Except Fault Machine) = _
    rw [hpair]
  have hback : summed.step (.pop .d) = .ok { m with
      registers := withHL m.registers (m.hl + a)
      carry := m.hl.uaddOverflow a
      memory := (m.push (m.pair .d)).memory } := by
    have hsp : m.sp - 2 + 2 = m.sp := by bv_omega
    show (Except.ok (Machine.setPair { summed with sp := m.sp - 2 + 2 } .d
      ((m.push (m.pair .d)).memory.readWord (m.sp - 2))) : Except Fault Machine) = _
    rw [hpop, hsp]
    simp only [summed, Machine.setPair, Machine.pair, withHL, high_of_append, low_of_append]
    rfl
  refine ⟨_, .cons rfl (fun hstack => by cases hstack) rfl
    (.cons rfl (within_of_registers rfl rfl rfl) hload
      (.cons rfl (within_of_registers rfl rfl rfl) hadd
        (.single rfl (fun hstack => by cases hstack) hback))), rfl, rfl, rfl, fun b hb => ?_⟩
  obtain ⟨hlow, hhigh⟩ := hdata b hb
  exact Memory.read_writeWord_of_ne hlow (by bv_omega)

/-- The start of an array is added from a pair that holds it, from a free pair, or from DE, which is
pushed for it. -/
theorem after_addBase {Q : Unit → State → Prop}
    (hheld : ∀ p, p = .d ∨ p = .b → s.regs.pairValue? p = some (.addr (.var base)) →
      Q ⟨⟩ { s with code := s.code ++ [.dad p] })
    (hfree : ∀ p, p = .d ∨ p = .b →
      Q ⟨⟩ { s with
        code := s.code ++ [.lxi p (.ofSymbol base), .dad p]
        regs := (s.regs.clearPair p).bindPair p (.addr (.var base)) })
    (hfull : Q ⟨⟩ { s with code := s.code ++
      [.push .d, .lxi .d (.ofSymbol base), .dad .d, .pop .d] }) :
    After (addBase base) s Q := by
  have hspare (p : Pair) (hfind : [Pair.d, .b].find? (s.isFree ·) = some p) :
      After (do
        vacatePair p
        emit (.lxi p (.ofSymbol base))
        record (·.bindPair p (.addr (.var base)))
        emit (.dad p)) s Q := by
    have hp : p = .d ∨ p = .b := by simpa using List.mem_of_find?_eq_some hfind
    obtain ⟨high, low, hhalves⟩ : ∃ high low, p.halves? = some (high, low) := by
      obtain rfl | rfl := hp
      · exact ⟨_, _, rfl⟩
      · exact ⟨_, _, rfl⟩
    rw [after_bind]
    refine after_vacatePair_of_isFree hhalves (by simpa using List.find?_some hfind) ?_
    simp only [after_bind, after_emit, after_record, List.append_assoc]
    exact hfree p hp
  simp only [addBase, after_bind, after_get]
  split
  next p hloaded =>
    -- The start of the array is in a pair other than HL.
    have hheld' : (p = .d ∨ p = .b) ∧ s.regs.findPair? (.addr (.var base)) = some p := by
      split at hloaded
      next hfind => exact ⟨.inl (Option.some.inj hloaded).symm, Option.some.inj hloaded ▸ hfind⟩
      next hfind => exact ⟨.inr (Option.some.inj hloaded).symm, Option.some.inj hloaded ▸ hfind⟩
      next => cases hloaded
    exact (after_emit _).mpr (hheld p hheld'.1 (pairValue?_of_findPair? hheld'.2))
  next =>
    split
    next p hfind => exact hspare p hfind
    next => exact (after_emitAll _).mpr hfull

section Elements

variable (h : Arrives ρ data m₀ memory s m) (hdata : ∀ a, data a → a ∉ stackArea m₀.sp)
  (hprovided : ∀ a, Provided ρ s m₀ a → data a)

include h hdata

/-- With the position in HL, that is scaled and the start of the array is added. HL then stands for
the address of the element. -/
theorem Arrives.after_sum {width : Width} (hbase : .addr (.var base) ∈ s.pinned)
    (hhl : m.hl * BitVec.ofNat 16 width.size + ρ (.addr (.var base)) = ρ u) :
    After (do emitAll (scaling width); addBase base; record (·.bindPair .h u)) s fun _ s' =>
      Continues ρ data m₀ memory s m s' := by
  have himm : m.imm (.ofSymbol base) = .ok (ρ (.addr (.var base))) :=
    h.agrees.imm_ofSymbol hbase rfl
  -- Whatever adds the start to the scaled position leaves the address in HL.
  have hsum {code : List Instr} {rf : RegisterFile} (hmatched : rf.Matched)
      (hcode : ∀ data m₁, Unmarked data m₁ →
        Changes data (withHL m.registers (m.hl * BitVec.ofNat 16 width.size)) m m₁ →
        ∃ rs, (rf.bindPair .h u).Describes ρ rs ∧ Computes data code m₁ rs) :
      Continues ρ data m₀ memory s m { s with
        code := s.code ++ (scaling width ++ code), regs := rf.bindPair .h u } := by
    have hnone : ∀ a, (fun _ : Word => False) a → data a := fun _ hfalse => hfalse.elim
    refine h.computes hdata hnone hmatched.bindPair fun data' _ hunmarked => ?_
    have hscaling : Computes data' (scaling width) m _ := computes_scaling width m
    obtain ⟨m₁, hwalks, hchanges⟩ := hscaling
    obtain ⟨rs, hdescribes, hcomputes⟩ := hcode data' m₁ (hunmarked.of_sp hchanges.sp) hchanges
    exact ⟨rs, hdescribes, .append_walks hwalks (hchanges.registers ▸ hchanges) hcomputes⟩
  have hscaled {data' : Word → Prop} {m₁ : Machine}
      (hchanges : Changes data' (withHL m.registers (m.hl * BitVec.ofNat 16 width.size)) m m₁) :
      m₁.hl + ρ (.addr (.var base)) = ρ u ∧
      m₁.imm (.ofSymbol base) = .ok (ρ (.addr (.var base))) := by
    have hdistance : m₁.hl = m.hl * BitVec.ofNat 16 width.size := by
      rw [Machine.hl, hchanges.registers, withHL_hl]
    have himm₁ : m₁.imm (.ofSymbol base) = m.imm (.ofSymbol base) := by
      simp only [Imm.ofSymbol, Machine.imm, Machine.addressOf?, hchanges.addresses]
    exact ⟨hdistance ▸ hhl, himm₁.trans himm⟩
  simp only [after_bind, after_emitAll, after_record]
  refine after_addBase ?_ ?_ ?_
  · intro p hp hpair
    rw [List.append_assoc]
    refine hsum h.matched fun data' m₁ _ hchanges => ?_
    have hstart : m₁.pair p = ρ (.addr (.var base)) := by
      rw [← pair_of_pairValue? h.agrees.registers hpair]
      obtain rfl | rfl := hp
      · simp only [Machine.pair, hchanges.registers]
        rfl
      · simp only [Machine.pair, hchanges.registers]
        rfl
    have hadd : Computes data' [.dad p] m₁ _ :=
      computes_addPair (by obtain rfl | rfl := hp <;> decide) m₁
    rw [hstart, (hscaled hchanges).1, hchanges.registers] at hadd
    exact ⟨_, Describes.bindHL h.agrees.registers, hadd⟩
  · intro p hp
    rw [List.append_assoc]
    refine hsum h.matched.clearPair.bindPair fun data' m₁ _ hchanges => ?_
    have hadd : Computes data' [.lxi p (.ofSymbol base), .dad p] m₁ _ :=
      computes_addSymbol hp (hscaled hchanges).2
    rw [(hscaled hchanges).1] at hadd
    refine ⟨_, ?_, hadd⟩
    obtain rfl | rfl := hp
    · have hbound :
        (((s.regs.clearPair .d).bindPair .d (.addr (.var base))).bindPair .h u).Describes ρ
          _ := Describes.bindHL ((h.agrees.registers.clearPair (p := .d)).bindPair (p := .d) rfl)
      simp only [Machine.setPair, hchanges.registers]
      exact hbound
    · have hbound :
        (((s.regs.clearPair .b).bindPair .b (.addr (.var base))).bindPair .h u).Describes ρ
          _ := Describes.bindHL ((h.agrees.registers.clearPair (p := .b)).bindPair (p := .b) rfl)
      simp only [Machine.setPair, hchanges.registers]
      exact hbound
  · rw [List.append_assoc]
    refine hsum h.matched fun data' m₁ hunmarked hchanges => ?_
    have hadd := computes_addSymbol_saved (hscaled hchanges).2 hunmarked
    rw [(hscaled hchanges).1, hchanges.registers] at hadd
    exact ⟨_, Describes.bindHL h.agrees.registers, hadd⟩

/-- HL points at an element at a computed position, if the position is in HL when it is scaled. That
is the only thing the selector does not make sure of by itself. -/
theorem Arrives.after_addressElement {width : Width} {position : Operand}
    (hprovided : ∀ a, Provided ρ s m₀ a → data a) (hpins : s.PinsAddresses)
    (hbase : .addr (.var base) ∈ s.pinned) (hposition : .of position ∈ s.pinned)
    (haddress : ρ u = ρ (.addr (.var base)) + ρ (.of position) * BitVec.ofNat 16 width.size)
    (hplaced : After (loadHLForChange (.of position)) s fun _ s' =>
      s'.has (.pair .h) (.of position) = true) :
    After (do addressElement base width position; record (·.bindPair .h u)) s fun _ s' =>
      Continues ρ data m₀ memory s m s' := by
  have hfollows := follows_loadHLForChange hpins hposition s m ⟨rfl, rfl, rfl⟩ h.agrees h.matched
  -- The selector scales before it knows that it has a word; written with `scaling`, both widths are
  -- one proof.
  have hrest : After (do
      loadHLForChange (.of position)
      emitAll (scaling width)
      addBase base
      record (·.bindPair .h u)) s fun _ s' => Continues ρ data m₀ memory s m s' := by
    rw [after_bind]
    refine (After.and hfollows hplaced).mono ?_
    rintro _ s₁ ⟨⟨m₁, hleads, -⟩, hhas⟩
    have h₁ := h.leads hdata hprovided hleads
    refine (h₁.after_sum hdata (u := u) (hleads.frame.pinned ▸ hbase) ?_).mono ?_
    · have hhl : m₁.hl = ρ (.of position) := pair_of_has (p := .h) h₁.agrees hhas
      rw [hhl, haddress, BitVec.add_comm]
    · rintro _ s₂ ⟨m₂, h₂, hframe⟩
      exact ⟨m₂, h₂, hleads.frame.trans hframe⟩
  cases width with
  | word =>
    simp only [loadHLForChange, scaling, after_bind, after_emitAll, after_emit, after_record,
      addressElement] at hrest ⊢
    exact hrest
  | byte =>
    simp only [loadHLForChange, scaling, after_bind, after_emitAll, after_record, addressElement,
      List.append_nil] at hrest ⊢
    exact hrest

/-- HL points at an element at a constant position. Close to where HL points already, it is stepped
up; otherwise the address is loaded as a literal. -/
theorem Arrives.after_addressConstElement {offset : Int}
    (hprovided : ∀ a, Provided ρ s m₀ a → data a) (hbase : .addr (.var base) ∈ s.pinned)
    (haddress : ρ u = ρ (.addr (.var base)) + BitVec.ofInt 16 offset) :
    After (do addressConstElement base offset; record (·.bindPair .h u)) s fun _ s' =>
      Continues ρ data m₀ memory s m s' := by
  simp only [addressConstElement, after_bind, after_get, after_record]
  -- HL may hold the start of the array already, and then the offset is counted up.
  refine after_ite (fun hheld => (after_emitAll _).mpr ?_) fun _ => ?_
  · obtain ⟨hpair, hnonneg, -⟩ := hheld
    have hhl : m.hl + BitVec.ofNat 16 offset.toNat = ρ u := by
      rw [show m.hl = ρ (.addr (.var base)) from
        pair_of_pairValue? (p := .h) h.agrees.registers (findPair?_eq_h.mp hpair), haddress,
        ← BitVec.ofInt_natCast, Int.toNat_of_nonneg hnonneg]
    have hnone : ∀ a, (fun _ : Word => False) a → data a := fun _ hfalse => hfalse.elim
    refine h.computes hdata hnone h.matched.bindPair fun data' _ _ => ?_
    have hsteps : Computes data' _ m _ := computes_incrementPair offset.toNat m
    rw [hhl] at hsteps
    exact ⟨_, Describes.bindHL h.agrees.registers, hsteps⟩
  · simp only [after_bind, after_emit]
    refine After.mono (tracks_vacateHL_none h.agrees h.matched) ?_
    rintro _ s₁ ⟨m₁, hleads, -⟩
    have hstep :
        Steps (Provided ρ s₁ m₁) (.lxi .h (.sym base offset)) m₁ (m₁.setPair .h (ρ u)) := by
      obtain ⟨a, ha⟩ := hleads.agrees.declared _ (hleads.frame.pinned ▸ hbase) base rfl
      refine .of_registers rfl rfl rfl ?_
      show (m₁.imm (.sym base offset) >>= fun a => pure (m₁.setPair .h a)) = _
      rw [haddress, hleads.agrees.address base a ha]
      simp only [Machine.imm, ha]
      rfl
    exact h.continues hdata hprovided
      (hleads.trans (leads_setPair hleads.agrees hleads.matched (p := .h) rfl (.single hstep)))

/-- The word that HL points at is read, low byte first, through the accumulator. -/
theorem Arrives.after_loadElement {id : Nat} (hprovided : ∀ a, Provided ρ s m₀ a → data a)
    (hpair : s.regs.pairValue? .h = some (.addr (.temp id)))
    (hlow : data (ρ (.addr (.temp id)))) (hhigh : data (ρ (.addr (.temp id)) + 1))
    (hvalue : memory.readWord (ρ (.addr (.temp id))) = ρ (.temp id)) :
    After (loadElement id) s fun _ s' => Continues ρ data m₀ memory s m s' := by
  -- Once the address is safe, HL still holds it, and the word is read through HL.
  have hread {s₁ : State} {m₁ : Machine} (hleads₁ : Leads ρ s m s₁ m₁) (hsame : SameHL s s₁) :
      After (do
        saveAccumulator false
        emitAll [.mov .a .m, .inx .h, .mov .h .m, .mov .l .a]
        record fun rf => (rf.clear .a).bindPair .h (.temp id)) s₁ fun _ s' =>
          Continues ρ data m₀ memory s m s' := by
    simp only [after_bind, after_emitAll, after_record]
    refine After.mono (tracks_saveAccumulator_keeping hleads₁.agrees hleads₁.matched) ?_
    rintro _ s₂ ⟨m₂, hleads₂, hkeeps, -⟩
    have hleads := hleads₁.trans hleads₂
    have h₂ := h.leads hdata hprovided hleads
    have hhl : m₂.hl = ρ (.addr (.temp id)) := by
      refine pair_of_pairValue? (p := .h) h₂.agrees.registers ?_
      rw [(hkeeps.sameHL (by decide) (by decide)).pairValue?, hsame.pairValue?, hpair]
    have hword : m₂.memory.readWord m₂.hl = ρ (.temp id) := by
      rw [hhl, ← hvalue, Memory.readWord, Memory.readWord, h₂.contents _ hlow, h₂.contents _ hhigh]
    have hcells : ∀ a, a = m₂.hl ∨ a = m₂.hl + 1 → data a := by
      rw [hhl]
      rintro a (rfl | rfl)
      · exact hlow
      · exact hhigh
    have hmatched₂ : ((s₂.regs.clear .a).bindPair .h (.temp id)).Matched :=
      h₂.matched.clear.bindPair
    obtain ⟨m₃, h₃, hframe⟩ := h₂.computes hdata hcells hmatched₂
      fun data' hsub _ => by
        have hload := computes_loadWord (hsub _ (.inl rfl)) (hsub _ (.inr rfl))
        rw [hword] at hload
        exact ⟨_, Describes.bindHL (Describes.clearAccumulator h₂.agrees.registers), hload⟩
    exact ⟨m₃, h₃, hleads.frame.trans hframe⟩
  have hcopied {p : Pair} {high low : Reg} (hp : p.halves? = some (high, low))
      (hhigh : .h ∉ [high, low]) (hlow : .l ∉ [high, low]) :
      After (do
        copyPair .h p
        saveAccumulator false
        emitAll [.mov .a .m, .inx .h, .mov .h .m, .mov .l .a]
        record fun rf => (rf.clear .a).bindPair .h (.temp id)) s fun _ s' =>
          Continues ρ data m₀ memory s m s' := by
    rw [after_bind]
    have hhl : Pair.h.halves? = some (.h, .l) := rfl
    refine After.mono (tracks_copyPair h.agrees h.matched hhl hp) ?_
    rintro _ s₁ ⟨m₁, hleads₁, hkeeps, -⟩
    exact hread hleads₁ (hkeeps.sameHL hhigh hlow)
  unfold loadElement
  simp only [after_bind, after_get]
  refine after_ite (fun _ => after_ite (fun _ => ?_) fun _ => after_ite (fun _ => ?_) fun _ => ?_)
    fun _ => ?_
  · simpa only [after_bind] using hcopied (p := .d) rfl (by decide) (by decide)
  · simpa only [after_bind] using hcopied (p := .b) rfl (by decide) (by decide)
  · simp only [after_bind]
    refine After.mono (tracks_spillHL h.agrees h.matched hpair) ?_
    rintro answer s₁ ⟨m₁, hleads₁, hanswer⟩
    cases answer with
    | true =>
      obtain ⟨_, hnone, -⟩ := hanswer
      cases hnone
    | false =>
      have := hread hleads₁ (hanswer.1.sameHL (by decide) (by decide))
      simpa only [after_bind, after_pure] using this
  · have := hread (.refl h.agrees h.matched) ⟨rfl, rfl⟩
    simpa only [after_bind, after_pure] using this

/-- An element of an array. The address is computed in HL, and a word element is read as well unless
it is used by its address only. -/
theorem Arrives.after_index (hprovided : ∀ a, Provided ρ s m₀ a → data a) (hpins : s.PinsAddresses)
    (hop : t.op = .index) (hlhs : t.lhs = .var base) (hbase : .addr (.var base) ∈ s.pinned)
    (hwidth : ∀ symbol, s.symbols.get? base = some symbol → symbol.width = t.width)
    (hrhs : ∀ position, t.rhs = some position → .of position ∈ s.pinned ∧
      ρ (.addr (.temp t.id)) =
        ρ (.addr (.var base)) + ρ (.of position) * BitVec.ofNat 16 t.width.size ∧
      (position.isConst = false → After (loadHLForChange (.of position)) s fun _ s' =>
        s'.has (.pair .h) (.of position) = true))
    (hvalue : t.width = .word → data (ρ (.addr (.temp t.id))) ∧ data (ρ (.addr (.temp t.id)) + 1) ∧
      memory.readWord (ρ (.addr (.temp t.id))) = ρ (.temp t.id)) :
    After (selectTriple t) s fun _ s' => Continues ρ data m₀ memory s m s' := by
  -- With the address in HL, a word that is read is loaded.
  have hload {x : Selecting Unit}
      (hx : After (do x; record (·.bindPair .h (.addr (.temp t.id)))) s fun _ s' =>
        Continues ρ data m₀ memory s m s') :
      After (do
        x
        record (·.bindPair .h (.addr (.temp t.id)))
        if t.width = .word ∧ !t.addressOnly then loadElement t.id) s fun _ s' =>
          Continues ρ data m₀ memory s m s' := by
    simp only [after_bind, after_record] at hx ⊢
    refine hx.mono ?_
    rintro _ s₁ ⟨m₁, h₁, hframe⟩
    refine after_ite (fun hword => ?_) fun _ => (after_pure _).mpr ⟨m₁, h₁, hframe⟩
    obtain ⟨hlow, hhigh, hread⟩ := hvalue hword.1
    refine (h₁.after_loadElement hdata (h.provided_of_frame h₁ hframe hprovided) ?_ hlow hhigh
      hread).mono ?_
    · exact (pairValue?_eq_some (p := .h) rfl).mpr (get_bindPair (p := .h) rfl)
    · rintro _ s₂ ⟨m₂, h₂, hframe₂⟩
      exact ⟨m₂, h₂, hframe.trans hframe₂⟩
  have hselect : selectTriple t = selectIndex t := by
    simp only [selectTriple, hop]
  rw [hselect]
  unfold selectIndex
  simp only [hlhs]
  rw [after_bind]
  have hsymbol : After (arraySymbol t base) s fun symbol s' => symbol.width = t.width ∧ s' = s := by
    simp only [arraySymbol, after_bind, after_get]
    split
    next symbol hget =>
      exact after_ite (fun _ => (after_pure _).mpr ⟨hwidth symbol hget, rfl⟩) fun _ =>
        after_reject _
    next => exact after_reject _
  refine hsymbol.mono ?_
  rintro symbol _ ⟨hsame, rfl⟩
  split
  next => exact (after_bind _ _).mpr (after_reject _)
  next k hk =>
    obtain ⟨hpinned, haddress, -⟩ := hrhs _ hk
    have hoffset (offset : Int) (hmul : checkedMul k symbol.width.size = .ok offset) :
        ρ (.addr (.temp t.id)) = ρ (.addr (.var base)) + BitVec.ofInt 16 offset := by
      have hproduct : offset = k * t.width.size := by
        unfold checkedMul at hmul
        split at hmul
        next => rw [← Except.ok.inj hmul, hsame]
        next => cases hmul
      have hliteral : ρ (.of (.const k)) = BitVec.ofInt 16 k := h.agrees.literal k
      rw [haddress, hliteral, hproduct, BitVec.ofInt_mul, BitVec.ofInt_natCast]
    split
    next offset hmul =>
      exact hload (h.after_addressConstElement hdata hprovided hbase (hoffset offset hmul))
    next => exact (after_bind _ _).mpr (after_throw _)
  next position hnot hposition =>
    obtain ⟨hpinned, haddress, hplaced⟩ := hrhs _ hposition
    have hconst : position.isConst = false := by
      cases position with
      | const c => exact absurd rfl (hnot c)
      | var name | temp id => rfl
    rw [← hsame] at haddress
    exact hload (h.after_addressElement hdata hprovided hpins hbase hpinned haddress
      (hplaced hconst))

end Elements

/-! ## Addresses -/

/-- The address of an operand is in the pair that holds it, or it comes back from the save slot into
HL. The answer says which pair it is. -/
theorem tracks_locateAddress {o : Operand} (h : Agrees ρ s m) (hmatched : s.regs.Matched)
    (hpins : s.PinsAddresses) (hv : .addr o ∈ s.pinned) :
    Tracks ρ (locateAddress (.addr o)) s m fun p s' _ => s'.regs.pairValue? p = some (.addr o) := by
  refine tracks_get ?_
  split
  next p hfind => exact tracks_pure h hmatched (pairValue?_of_findPair? hfind)
  next =>
    refine after_ite (fun _ => ?_) fun _ => after_rejectTooComplex
    refine (tracks_loadHL h hmatched hpins hv).bind fun _ s' m' hleads hcarries => ?_
    exact tracks_pure hleads.agrees hleads.matched (hcarries.full rfl)

/-- A pair, which holds a word, gets another name for it. No register changes. -/
theorem Describes.renamePair {rf : RegisterFile} {p : Pair} (h : rf.Describes ρ m.registers)
    (hv : rf.pairValue? p = some v) (hu : ρ u = ρ v) :
    (rf.bindPair p u).Describes ρ m.registers := by
  obtain ⟨high, low, hp, hhigh, hlow⟩ := halves?_of_pairValue? hv
  have hne := Pair.halves?_ne hp
  simp only [RegisterFile.bindPair, hp]
  have hset := (h.clear (r := high)).clear (r := low)
  refine (hset.put_get (c := .half u .high) hne.1 ?_).put_get (c := .half u .low) hne.2.1 ?_
  · show m.registers.get high = Side.high.part (ρ u)
    rw [hu]
    exact h.half hne.1 hhigh
  · show m.registers.get low = Side.low.part (ρ u)
    rw [hu]
    exact h.half hne.2.1 hlow

theorem leads_renamePair {p : Pair} (h : Agrees ρ s m) (hmatched : s.regs.Matched)
    (hv : s.regs.pairValue? p = some v) (hu : ρ u = ρ v) :
    Leads ρ s m { s with regs := s.regs.bindPair p u } m :=
  .of_record h (Describes.renamePair h.registers hv hu) hmatched.bindPair

/-- Two moves copy a pair to HL. -/
theorem strides_copyToHL {p : Pair} {high low : Reg} (hp : p.halves? = some (high, low)) :
    Strides data [.mov .h high, .mov .l low] m (m.setPair .h (m.pair p)) := by
  have hne := Pair.halves?_ne hp
  have hrun : Strides data [.mov .h high, .mov .l low] m
      ((m.set .h (m.get high)).set .l ((m.set .h (m.get high)).get low)) :=
    .cons (.mov (by decide) hne.1) (.single (.mov (by decide) hne.2.1))
  have hcopied : (m.set .h (m.get high)).set .l ((m.set .h (m.get high)).get low) =
      m.setPair .h (m.pair p) := by
    rw [pair_of_halves? hp, Machine.setPair_of_halves? (p := .h) rfl,
      show Side.high.part (m.registers.get high ++ m.registers.get low) = m.registers.get high from
        high_of_append _ _,
      show Side.low.part (m.registers.get high ++ m.registers.get low) = m.registers.get low from
        low_of_append _ _]
    cases p <;> cases hp <;> rfl
  rwa [hcopied] at hrun

/-- The address of a variable or of an element. A variable gives a literal that the assembler
knows; for an element the address is where it was left, and HL gets a copy if the original is
still needed. -/
theorem Arrives.after_address (h : Arrives ρ data m₀ memory s m)
    (hdata : ∀ a, data a → a ∉ stackArea m₀.sp) (hprovided : ∀ a, Provided ρ s m₀ a → data a)
    (hpins : s.PinsAddresses) (hop : t.op = .address) (hv : .addr t.lhs ∈ s.pinned)
    (hresult : ρ (.temp t.id) = ρ (.addr t.lhs)) :
    After (selectTriple t) s fun _ s' => Continues ρ data m₀ memory s m s' := by
  have hselect : selectTriple t = selectAddress t := by
    simp only [selectTriple, hop]
  rw [hselect]
  unfold selectAddress
  split
  next name hlhs =>
    rw [hlhs] at hv hresult
    simp only [after_bind, after_emit, after_record]
    refine After.mono (tracks_vacateHL_none h.agrees h.matched) ?_
    rintro _ s₁ ⟨m₁, hleads, -⟩
    have hstep := hleads.agrees.step_lxi (v := .addr (.var name)) (hleads.frame.pinned ▸ hv) rfl .h
    rw [← hresult] at hstep
    exact h.continues hdata hprovided
      (hleads.trans (leads_setPair hleads.agrees hleads.matched (p := .h) rfl (.single hstep)))
  next id hlhs =>
    rw [hlhs] at hv hresult
    simp only [after_bind, after_get]
    refine after_ite (fun _ => ?_) fun _ => after_reject _
    simp only [addressOfElement, after_bind, after_get]
    refine After.mono (tracks_locateAddress h.agrees h.matched hpins hv) ?_
    rintro p s₁ ⟨m₁, hleads₁, hpair⟩
    have hrename : Continues ρ data m₀ memory s m
        { s₁ with regs := s₁.regs.bindPair p (.temp t.id) } :=
      h.continues hdata hprovided
        (hleads₁.trans (leads_renamePair hleads₁.agrees hleads₁.matched hpair hresult))
    -- From another pair the address is copied to HL, which is vacated first.
    have hcopy {high low : Reg} (hhalves : p.halves? = some (high, low))
        (hhigh : high ∉ [Reg.h, .l]) (hlow : low ∉ [Reg.h, .l]) :
        After (vacateHL none) s₁ fun _ s₂ => Continues ρ data m₀ memory s m { s₂ with
          code := s₂.code ++ [.mov .h high, .mov .l low]
          regs := s₂.regs.bindPair .h (.temp t.id) } := by
      refine After.mono (tracks_vacateHL_none hleads₁.agrees hleads₁.matched) ?_
      rintro _ s₂ ⟨m₂, hleads₂, hkeeps, -⟩
      have hpinned : .addr (.temp id) ∈ s₁.pinned := hleads₁.frame.pinned ▸ hv
      have hcarries := hkeeps.carries hleads₂.frame hpinned hhalves hhigh hlow (.inl hpair)
      have hword : m₂.pair p = ρ (.temp t.id) := by
        rw [hresult]
        exact pair_of_pairValue? hleads₂.agrees.registers (hcarries.full rfl)
      refine h.continues hdata hprovided ((hleads₁.trans hleads₂).trans
        (leads_setPair hleads₂.agrees hleads₂.matched (p := .h) rfl ?_))
      rw [← hword]
      exact strides_copyToHL hhalves
    refine after_ite (fun _ => ?_) fun _ => (after_record _).mpr hrename
    cases p with
    | h =>
      -- The address stays in HL under its new name, and is copied elsewhere first.
      simp only [after_bind, after_record]
      refine After.mono (tracks_preserveHL_keeping hleads₁.agrees hleads₁.matched) ?_
      rintro _ s₂ ⟨m₂, hleads₂, hsame, -⟩
      exact h.continues hdata hprovided ((hleads₁.trans hleads₂).trans
        (leads_renamePair hleads₂.agrees hleads₂.matched (hsame.pairValue?.trans hpair) hresult))
    | d =>
      simp only [Pair.halves?, after_bind, after_emitAll, after_record]
      exact hcopy rfl (by decide) (by decide)
    | b =>
      simp only [Pair.halves?, after_bind, after_emitAll, after_record]
      exact hcopy rfl (by decide) (by decide)
    | sp | psw => exact (after_record _).mpr hrename
  next => exact after_reject _

end Accumulator.Select
