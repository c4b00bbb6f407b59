import Mathlib.Tactic.Common
import Accumulator.Proofs.Select.Access

/-!
# Stores

An assignment places a value and an address, and then stores the value in one of a few ways
(`Storing`). Afterwards the record drops what the store may have changed (`settled`).
-/

namespace Accumulator.Select

open Machine RegisterFile

variable {ρ : Valuation} {data : Word → Prop} {m₀ m m' : Machine} {memory : Memory}
  {s s' : State} {t : Triple} {v address : Value} {name : String}

/-- How a value is stored when it is in its place. -/
inductive Storing where
  /-- A byte, where HL points. -/
  | atHL (source : Source)
  /-- The accumulator, where DE or BC points. -/
  | atPair (p : Pair)
  /-- The accumulator, in a variable. -/
  | byName (name : String)
  /-- HL, in a variable. -/
  | wordByName (name : String)
  /-- DE, where HL points; the address is kept if it is needed. -/
  | wordFromDE (keep : Bool)
  /-- HL, where DE or BC points; the address is kept if it is needed. -/
  | wordFromHL (p : Pair) (keep : Bool)

namespace Storing

/-- The instructions of a store. -/
def code : Storing → List Instr
  | atHL (.reg r) => [.mov .m r]
  | atHL (.imm value) => [.mvi .m value]
  | atPair p => [.stax p]
  | byName name => [.sta (.ofSymbol name)]
  | wordByName name => [.shld (.ofSymbol name)]
  | wordFromDE keep => [.mov .m .e, .inx .h, .mov .m .d] ++ if keep then [.dcx .h] else []
  | wordFromHL p keep =>
    [.mov .a .l, .stax p, .inx p, .mov .a .h, .stax p] ++ if keep then [.dcx p] else []

/-- What is known of the registers after a store. -/
def update (rf : RegisterFile) : Storing → RegisterFile
  | wordFromDE keep => if keep then rf else rf.clearPair .h
  | wordFromHL p keep => if keep then rf.clear .a else (rf.clear .a).clearPair p
  | _ => rf

/-- How much is stored. -/
def width : Storing → Width
  | atHL _ | atPair _ | byName _ => .byte
  | wordByName _ | wordFromDE _ | wordFromHL _ _ => .word

/-- Where the store reads the address and a word. -/
def reads (address v : Value) : Storing → List (Location × Value)
  | atHL _ => [(.pair .h, address)]
  | atPair p => [(.pair p, address)]
  | byName _ => []
  | wordByName _ => [(.pair .h, v)]
  | wordFromDE _ => [(.pair .h, address), (.pair .d, v)]
  | wordFromHL p _ => [(.pair p, address), (.pair .h, v)]

/-- The state after a store. -/
def apply (o : Storing) (s : State) : State :=
  { s with code := s.code ++ o.code, regs := o.update s.regs }

/-- The machine has the value and the address where the store reads them. -/
def Holds (ρ : Valuation) (address v : Value) (m : Machine) : Storing → Prop
  | atHL source => m.hl = ρ address ∧ source.value m = lowOf ρ v ∧ ∀ r, source = .reg r → r ≠ .m
  | atPair p => (p = .d ∨ p = .b) ∧ m.pair p = ρ address ∧ m.registers.a = lowOf ρ v
  | byName name => m.imm (.ofSymbol name) = .ok (ρ address) ∧ m.registers.a = lowOf ρ v
  | wordByName name => m.imm (.ofSymbol name) = .ok (ρ address) ∧ m.hl = ρ v
  | wordFromDE _ => m.hl = ρ address ∧ m.pair .d = ρ v
  | wordFromHL p _ => (p = .d ∨ p = .b) ∧ m.pair p = ρ address ∧ m.hl = ρ v

/-- The place that is written. -/
def place (ρ : Valuation) (address : Value) (o : Storing) : Place :=
  { address := ρ address, width := o.width }

/-- A store keeps the halves of pairs together in the record: at most it clears whole pairs and the
accumulator. -/
theorem matched_update {rf : RegisterFile} (h : rf.Matched) (o : Storing) :
    (o.update rf).Matched := by
  cases o with
  | wordFromDE keep =>
    cases keep with
    | true => exact h
    | false => exact h.clearPair (p := .h)
  | wordFromHL p keep =>
    cases keep with
    | true => exact h.clear (r := .a)
    | false => exact (h.clear (r := .a)).clearPair (p := p)
  | _ => exact h

/-- What the code of a store does. -/
structure Runs (ρ : Valuation) (data : Word → Prop) (address v : Value) (o : Storing)
    (m m' : Machine) : Prop where
  walks : Walks data o.code m m'
  sp : m'.sp = m.sp
  addresses : m'.addresses = m.addresses
  memory : m'.memory = (o.place ρ address).write m.memory (ρ v)
  registers : ∀ rf : RegisterFile, rf.Describes ρ m.registers →
    (o.update rf).Describes ρ m'.registers

/-- A move into memory touches the one byte that HL points at. -/
theorem touches_setM {r : Reg} {a : Word} (hr : r ≠ .m) (ha : a ∈ m.touches (.mov .m r)) :
    a = m.hl := by
  cases r <;> first | exact absurd rfl hr |
    simpa [touches, loads, storeCells, stores, operandCells] using ha

/-- A byte goes where HL points. The byte comes from a register or is a literal, and no register
changes, so whatever the record said before is still right. -/
theorem runs_atHL {source : Source} (h : (atHL source).Holds ρ address v m)
    (ha : data (ρ address)) :
    ∃ m', Runs ρ data address v (atHL source) m m' := by
  obtain ⟨hhl, hvalue, hsource⟩ := h
  have hbyte : lowOf ρ v = (ρ v).setWidth 8 := lowOf_eq ρ v
  refine ⟨m.set .m (lowOf ρ v), ?_, rfl, rfl, ?_, fun _ h => h⟩
  · cases source with
    | reg r =>
      have hr := hsource r rfl
      refine .single rfl (fun _ a htouched => touches_setM hr htouched ▸ hhl ▸ ha) ?_
      show (Except.ok (m.set .m (m.get r)) : Except Fault Machine) = _
      rw [← hvalue]
      rfl
    | imm value =>
      refine .single rfl (fun _ a htouched => ?_) ?_
      · obtain rfl : a = m.hl := by
          simpa [touches, loads, storeCells, stores, operandCells] using htouched
        exact hhl ▸ ha
      · show (Except.ok (m.set .m value) : Except Fault Machine) = _
        rw [← hvalue]
        rfl
  · show m.memory.write m.hl (lowOf ρ v) = m.memory.write (ρ address) ((ρ v).setWidth 8)
    rw [hhl, hbyte]

/-- The accumulator goes where a pair points. As with HL, nothing but the one byte of memory
changes. -/
theorem runs_atPair {p : Pair} (h : (atPair p).Holds ρ address v m) (ha : data (ρ address)) :
    ∃ m', Runs ρ data address v (atPair p) m m' := by
  obtain ⟨hp, hpair, hacc⟩ := h
  refine ⟨m.store (m.pair p) m.registers.a, ?_, rfl, rfl, ?_, fun _ h => h⟩
  · refine .single rfl (fun _ a htouched => ?_) ?_
    · obtain rfl : a = m.pair p := by
        simpa [touches, loads, storeCells, stores] using htouched
      exact hpair ▸ ha
    · obtain rfl | rfl := hp
      · rfl
      · rfl
  · show m.memory.write (m.pair p) m.registers.a = m.memory.write (ρ address) ((ρ v).setWidth 8)
    rw [hpair, hacc, lowOf_eq]

/-- The accumulator goes to a variable. The instruction names the variable, so its address is that
of the symbol. -/
theorem runs_byName (h : (byName name).Holds ρ address v m) (ha : data (ρ address)) :
    ∃ m', Runs ρ data address v (byName name) m m' := by
  obtain ⟨himm, hacc⟩ := h
  refine ⟨m.store (ρ address) m.registers.a, ?_, rfl, rfl, ?_, fun _ h => h⟩
  · refine .single rfl (fun _ a htouched => ?_) ?_
    · obtain rfl : a = ρ address := by
        simpa [touches, loads, storeCells, stores, immAddress?, himm, Except.toOption]
          using htouched
      exact ha
    · show (m.imm (.ofSymbol name) >>= fun a => pure (m.store a m.registers.a)) = _
      rw [himm]
      rfl
  · show m.memory.write (ρ address) m.registers.a = m.memory.write (ρ address) ((ρ v).setWidth 8)
    rw [hacc, lowOf_eq]

/-- HL goes to a variable, both bytes at once, and no register changes. -/
theorem runs_wordByName (h : (wordByName name).Holds ρ address v m) (ha : data (ρ address))
    (ha' : data (ρ address + 1)) : ∃ m', Runs ρ data address v (wordByName name) m m' := by
  obtain ⟨himm, hhl⟩ := h
  refine ⟨m.storeWord (ρ address) m.hl, ?_, rfl, rfl, ?_, fun _ h => h⟩
  · refine .single rfl (fun _ a htouched => ?_) ?_
    · have hcell : a = ρ address ∨ a = ρ address + 1 := by
        simpa [touches, loads, storeCells_shld, immAddress?, himm, Except.toOption, wordCells]
          using htouched
      obtain rfl | rfl := hcell
      · exact ha
      · exact ha'
    · show (m.imm (.ofSymbol name) >>= fun a => pure (m.storeWord a m.hl)) = _
      rw [himm]
      rfl
  · show m.memory.writeWord (ρ address) m.hl = m.memory.writeWord (ρ address) (ρ v)
    rw [hhl]

/-- An instruction that touches one byte, which is part of the data, stays within the data. -/
theorem walks_touch {i : Instr} {a : Word} (hcontrol : i.isControl = false)
    (htouches : ∀ b ∈ m.touches i, b = a) (ha : data a) (hstep : m.step i = .ok m') :
    Walks data [i] m m' :=
  .single hcontrol (fun _ b hb => htouches b hb ▸ ha) hstep

/-- DE goes where HL points, low byte first. In between HL is stepped up, and it is stepped back if
its contents are needed afterwards; otherwise the record gives HL up. -/
theorem runs_wordFromDE {keep : Bool} (h : (wordFromDE keep).Holds ρ address v m)
    (ha : data (ρ address)) (ha' : data (ρ address + 1)) :
    ∃ m', Runs ρ data address v (wordFromDE keep) m m' := by
  obtain ⟨hhl, hpair⟩ := h
  let low := m.set .m m.registers.e
  let next := low.setPair .h (m.hl + 1)
  have hnext : next.hl = m.hl + 1 := high_append_low _
  let stored := next.set .m m.registers.d
  have hwalks : Walks data [.mov .m .e, .inx .h, .mov .m .d] m stored := by
    have hlow : Walks data [.mov .m .e] m low :=
      walks_touch rfl (fun _ hb => touches_setM (by decide) hb) (hhl ▸ ha) rfl
    have hstep : Walks data [.inx .h] low next :=
      .single rfl (within_of_registers rfl rfl rfl) rfl
    have hhigh : Walks data [.mov .m .d] next stored :=
      walks_touch rfl (fun _ hb => touches_setM (by decide) hb) (hnext ▸ hhl ▸ ha') rfl
    exact hlow.append (hstep.append hhigh)
  -- The two writes are those of one word, since the second address is the next one.
  have hmemory : stored.memory = m.memory.writeWord (ρ address) (ρ v) := by
    show (m.memory.write m.hl m.registers.e).write next.hl m.registers.d = _
    rw [hnext, hhl, ← hpair, Memory.writeWord]
    simp only [Machine.pair, high_of_append, low_of_append]
  -- Stepping HL back restores the registers. Otherwise its halves are no longer what they were, and
  -- the record drops them.
  cases keep with
  | true =>
    have hkept : (stored.setPair .h (stored.hl - 1)).memory = stored.memory := rfl
    refine ⟨stored.setPair .h (stored.hl - 1), ?_, rfl, rfl, hkept.trans hmemory, fun rf hrf => ?_⟩
    · exact hwalks.append (.single rfl (within_of_registers rfl rfl rfl) rfl)
    · have hback : stored.hl - 1 = m.hl := by
        rw [show stored.hl = m.hl + 1 from hnext]
        bv_omega
      have hsame : (stored.setPair .h (stored.hl - 1)).registers = m.registers := by
        rw [hback]
        exact withHL_self m.registers
      rw [hsame]
      exact hrf
  | false =>
    refine ⟨stored, by rwa [code, if_neg (by decide), List.append_nil], rfl, rfl, hmemory,
      fun rf hrf => ?_⟩
    have hcleared := (hrf.clear_set (r := .h) (x := (m.hl + 1).extractLsb' 8 8)
      (by decide)).clear_set
      (r := .l) (x := (m.hl + 1).extractLsb' 0 8) (by decide)
    exact hcleared

/-- HL goes where DE or BC points, low byte first, through the accumulator. The pair is stepped up
in between, and back if its contents are needed afterwards. Either way the accumulator is lost. -/
theorem runs_wordFromHL {p : Pair} {keep : Bool} (h : (wordFromHL p keep).Holds ρ address v m)
    (ha : data (ρ address)) (ha' : data (ρ address + 1)) :
    ∃ m', Runs ρ data address v (wordFromHL p keep) m m' := by
  obtain ⟨hp, hpair, hhl⟩ := h
  -- The pair is DE or BC. Both cases are the same computation on different registers, so equations
  -- are stated for `p` and split only where they are closed.
  obtain ⟨high, low, hhalves⟩ : ∃ high low, p.halves? = some (high, low) := by
    obtain rfl | rfl := hp
    · exact ⟨_, _, rfl⟩
    · exact ⟨_, _, rfl⟩
  let first := (m.set .a m.registers.l).store (m.pair p) m.registers.l
  let next := first.setPair p (m.pair p + 1)
  let stored := (next.set .a m.registers.h).store (m.pair p + 1) m.registers.h
  have hnext : (next.set .a m.registers.h).pair p = m.pair p + 1 := by
    obtain rfl | rfl := hp
    · exact high_append_low _
    · exact high_append_low _
  have htouches (m : Machine) : ∀ b ∈ m.touches (.stax p), b = m.pair p := by
    intro b hb
    simpa [touches, loads, storeCells, stores] using hb
  have hwalks : Walks data [.mov .a .l, .stax p, .inx p, .mov .a .h, .stax p] m stored := by
    have hload : Walks data [.mov .a .l] m (m.set .a m.registers.l) :=
      .single rfl (within_of_registers rfl rfl rfl) rfl
    have hsame : (m.set .a m.registers.l).pair p = m.pair p := by
      obtain rfl | rfl := hp
      · rfl
      · rfl
    have hlow : Walks data [.stax p] (m.set .a m.registers.l) first := by
      refine walks_touch rfl (htouches _) (hsame ▸ hpair ▸ ha) ?_
      show (Except.ok ((m.set .a m.registers.l).store ((m.set .a m.registers.l).pair p)
        m.registers.l) : Except Fault Machine) = _
      rw [hsame]
    have hstep : Walks data [.inx p] first next := by
      refine .single rfl (within_of_registers rfl rfl rfl) ?_
      show (Except.ok (first.setPair p (first.pair p + 1)) : Except Fault Machine) = _
      rw [show first.pair p = m.pair p from hsame]
    have hload' : Walks data [.mov .a .h] next (next.set .a m.registers.h) := by
      refine .single rfl (within_of_registers rfl rfl rfl) ?_
      obtain rfl | rfl := hp
      · rfl
      · rfl
    have hhigh : Walks data [.stax p] (next.set .a m.registers.h) stored := by
      refine walks_touch rfl (htouches _) (hnext ▸ hpair ▸ ha') ?_
      show (Except.ok ((next.set .a m.registers.h).store ((next.set .a m.registers.h).pair p)
        m.registers.h) : Except Fault Machine) = _
      rw [hnext]
    exact hload.append (hlow.append (hstep.append (hload'.append hhigh)))
  -- As for DE, the two writes are those of one word.
  have hmemory : stored.memory = m.memory.writeWord (ρ address) (ρ v) := by
    have hfirst : next.memory = m.memory.write (m.pair p) m.registers.l := by
      obtain rfl | rfl := hp
      · rfl
      · rfl
    show next.memory.write (m.pair p + 1) m.registers.h = _
    rw [hfirst, hpair, ← hhl, Memory.writeWord]
    simp only [Machine.hl, high_of_append, low_of_append]
  have hsp : stored.sp = m.sp ∧ stored.addresses = m.addresses := by
    obtain rfl | rfl := hp
    · exact ⟨rfl, rfl⟩
    · exact ⟨rfl, rfl⟩
  cases keep with
  | true =>
    have hback : stored.pair p - 1 = m.pair p := by
      rw [show stored.pair p = m.pair p + 1 from hnext]
      bv_omega
    refine ⟨stored.setPair p (stored.pair p - 1), ?_, ?_, ?_, ?_, fun rf hrf => ?_⟩
    · exact hwalks.append (.single rfl (within_of_registers rfl rfl rfl) rfl)
    · rw [← hsp.1]
      obtain rfl | rfl := hp
      · rfl
      · rfl
    · rw [← hsp.2]
      obtain rfl | rfl := hp
      · rfl
      · rfl
    · refine Eq.trans ?_ hmemory
      obtain rfl | rfl := hp
      · rfl
      · rfl
    · have hregisters : (stored.setPair p (stored.pair p - 1)).registers =
          { m.registers with a := m.registers.h } := by
        rw [hback]
        obtain rfl | rfl := hp
        · simp only [Machine.setPair, Machine.pair, high_of_append, low_of_append]
          rfl
        · simp only [Machine.setPair, Machine.pair, high_of_append, low_of_append]
          rfl
      rw [hregisters]
      exact Describes.clearAccumulator hrf
  | false =>
    refine ⟨stored, by rwa [code, if_neg (by decide), List.append_nil], hsp.1, hsp.2, hmemory,
      fun rf hrf => ?_⟩
    have hcleared := Describes.clearAccumulator (x := m.registers.h) hrf
    have hne := Pair.halves?_ne hhalves
    show ((rf.clear .a).clearPair p).Describes ρ stored.registers
    obtain rfl | rfl := hp
    · exact (hcleared.clear_set (r := .d) (x := (m.pair .d + 1).extractLsb' 8 8)
        (by decide)).clear_set
        (r := .e) (x := (m.pair .d + 1).extractLsb' 0 8) (by decide)
    · exact (hcleared.clear_set (r := .b) (x := (m.pair .b + 1).extractLsb' 8 8)
        (by decide)).clear_set
        (r := .c) (x := (m.pair .b + 1).extractLsb' 0 8) (by decide)

/-- With value and address in their places, every way of storing leaves the value at the address,
and a record that is right about the registers. -/
theorem exists_runs {o : Storing} (h : o.Holds ρ address v m)
    (hcells : ∀ a ∈ (o.place ρ address).cells, data a) : ∃ m', Runs ρ data address v o m m' := by
  cases o with
  | atHL source => exact runs_atHL h (hcells _ (List.mem_singleton.mpr rfl))
  | atPair p => exact runs_atPair h (hcells _ (List.mem_singleton.mpr rfl))
  | byName name => exact runs_byName h (hcells _ (List.mem_singleton.mpr rfl))
  | wordByName name =>
    exact runs_wordByName h (hcells _ List.mem_cons_self)
      (hcells _ (List.mem_cons_of_mem _ (List.mem_singleton.mpr rfl)))
  | wordFromDE keep =>
    exact runs_wordFromDE h (hcells _ List.mem_cons_self)
      (hcells _ (List.mem_cons_of_mem _ (List.mem_singleton.mpr rfl)))
  | wordFromHL p keep =>
    exact runs_wordFromHL h (hcells _ List.mem_cons_self)
      (hcells _ (List.mem_cons_of_mem _ (List.mem_singleton.mpr rfl)))

end Storing

/-! ## After a store -/

/-- The code so far has stored something: registers, save slot and memory are known, and the record
of the registers is still that of the values before. -/
structure Writes (ρ : Valuation) (data : Word → Prop) (m₀ : Machine) (memory : Memory) (s : State)
    (m : Machine) : Prop where
  walks : Walks data s.code m₀ m
  base : s.stackBase m = m₀.sp
  addresses : m.addresses = m₀.addresses
  matched : s.regs.Matched
  registers : s.regs.Describes ρ m.registers
  saved : ∀ slot ∈ s.spill, m.memory.readWord m.sp = ρ slot.value
  contents : ∀ a, data a → m.memory.read a = memory.read a

/-- After a store the code so far has run to a machine that has the value in memory. A place that is
no part of the stack does not hold the save slot, so what was saved is still there. -/
theorem Arrives.writes {o : Storing} (h : Arrives ρ data m₀ memory s m)
    (hdata : ∀ a, data a → a ∉ stackArea m₀.sp) (hholds : o.Holds ρ address v m)
    (hcells : ∀ a ∈ (o.place ρ address).cells, data a) :
    ∃ m', Writes ρ data m₀ ((o.place ρ address).write memory (ρ v)) (o.apply s) m' := by
  obtain ⟨m', hruns⟩ := Storing.exists_runs hholds hcells
  refine ⟨m', h.walks.append hruns.walks, ?_, hruns.addresses.trans h.addresses,
    o.matched_update h.matched, hruns.registers _ h.agrees.registers, ?_, ?_⟩
  · rw [← h.base]
    simp only [State.stackBase, Storing.apply, hruns.sp]
  · intro slot hslot
    have hspill : s.spill = some slot := hslot
    have hbase : m.sp + 2 = m₀.sp := by rw [← stackBase_of_some hspill, h.base]
    -- The slot lies in the area below the base of the stack, which no data may overlap.
    have hapart (a : Word) (ha : a = m.sp ∨ a = m.sp + 1) : a ∉ (o.place ρ address).cells := by
      intro hcell
      have hnot := hdata a (hcells a hcell)
      simp only [stackArea, List.mem_cons, List.not_mem_nil, or_false, not_or] at hnot
      obtain rfl | rfl := ha
      · exact hnot.2.2.1 (by bv_omega)
      · exact hnot.2.2.2 (by bv_omega)
    have hslot : Place.read { address := m.sp, width := .word } m'.memory =
        Place.read { address := m.sp, width := .word } m.memory := by
      rw [hruns.memory]
      refine Place.read_write_of_disjoint fun a ha => hapart a ?_
      simpa [Place.cells] using ha
    rw [hruns.sp, ← h.agrees.saved slot hspill]
    exact hslot
  · intro a ha
    rw [hruns.memory]
    exact Place.read_write_congr (h.contents a ha)

/-! ## Placing value and address -/

/-- Where a byte is stored from, with the address in HL. -/
def fetchByte (v : Value) : Selecting Source := do
  let s ← get
  match (s.regs.findByte? v).filter (fun r => r ≠ .h && r ≠ .l), v with
  | some r, _ => return .reg r
  | none, .of (.const c) => return .imm (lowByte c)
  | none, _ =>
    loadAccumulator v
    return .reg .a

/-- Place a byte, with the address in a pair. -/
def placeByteIn (v : Value) : Pair → Selecting Storing
  | .h => return .atHL (← fetchByte v)
  | p => do
    loadAccumulator v
    return .atPair p

/-- Place a byte and the address it goes to. -/
def placeByteAt (address v : Value) : Selecting Storing := do
  if (← get).needsAccumulator v then
    loadAccumulator v
  placeByteIn v (← locateAddress address)

/-- Place a word in HL, with the address in DE or BC. -/
def placeFromHL (p : Pair) (address v : Value) : Selecting Storing := do
  loadHL v
  match p.halves? with
  | none => rejectTooComplex
  | some (high, low) =>
    let keep := (← get).mustKeep address [high, low] true
    saveAccumulator false
    return .wordFromHL p keep

/-- Place a word and the address it goes to. -/
def placeWordAt (address v : Value) : Selecting Storing := do
  match ← locateAddress address with
  | .h =>
    let s ← get
    if s.isInPair v .d || (v.isConst && s.isFree .d) then
      loadPair .d v
      return .wordFromDE ((← get).mustKeep address [.h, .l] true)
    else
      exchange
      placeFromHL .d address v
  | p => placeFromHL p address v

/-- Place what an assignment stores, and where it goes to. -/
def placeStore (t : Triple) (v : Value) : Selecting Storing := do
  if t.throughPointer then
    requirePointer t
    let s ← get
    if s.widthOf v = .word then
      rejectIllegal t .wordThroughPointer
    if !v.isConst && (s.regs.findByte? v).isNone then
      loadAccumulator v
    loadHL (.of t.lhs)
    return .atHL (← fetchByte v)
  else
    match t.lhs with
    | .var name =>
      let s ← get
      match s.symbols.widthOf name with
      | .byte =>
        if s.regs.findPair? (.addr (.var name)) = some .h then
          return .atHL (← fetchByte v)
        else
          loadAccumulator v
          return .byName name
      | .word =>
        loadHL v
        return .wordByName name
    | .const c => rejectIllegal t (.constTarget c)
    | .temp id =>
      match Triple.find? (← get).triples id with
      | none => rejectIllegal t .computedTarget
      | some target =>
        match target.op with
        | .index =>
          match target.width with
          | .byte => placeByteAt (.addr (.temp target.id)) v
          | .word => placeWordAt (.addr (.temp target.id)) v
        | .deref => placeByteAt (.addr (.temp target.id)) v
        | _ => rejectIllegal t .computedTarget

/-- The value whose word is the address that an assignment goes to. -/
def targetValue (t : Triple) : Value :=
  if t.throughPointer then .of t.lhs else .addr t.lhs

/-- What placing makes sure of, apart from what the record says. -/
def Storing.Loaded (ρ : Valuation) (address v : Value) (m : Machine) : Storing → Prop
  | atHL source => source.value m = lowOf ρ v ∧ ∀ r, source = .reg r → r ≠ .m
  | atPair p => (p = .d ∨ p = .b) ∧ m.registers.a = lowOf ρ v
  | byName name => address = .addr (.var name) ∧ m.registers.a = lowOf ρ v
  | wordByName name => address = .addr (.var name)
  | wordFromDE _ => True
  | wordFromHL p _ => p = .d ∨ p = .b

/-- If the record says that address and word are in their places, then everything that the store
reads is in its place. Only these two are checked along the selection; bytes follow by
themselves. -/
theorem Storing.Loaded.holds {o : Storing} (h : o.Loaded ρ address v m) (hagrees : Agrees ρ s m)
    (haddress : address ∈ s.pinned)
    (hreads : (o.reads address v).all (fun read => s.has read.1 read.2) = true) :
    o.Holds ρ address v m := by
  have hhas {l : Location} {u : Value} (hmem : (l, u) ∈ o.reads address v) : s.has l u = true :=
    List.all_eq_true.mp hreads (l, u) hmem
  have hhl {u : Value} (hmem : (Location.pair .h, u) ∈ o.reads address v) : m.hl = ρ u :=
    pair_of_has (p := .h) hagrees (hhas hmem)
  cases o with
  | atHL source => exact ⟨hhl (by simp [reads]), h.1, h.2⟩
  | atPair p => exact ⟨h.1, pair_of_has hagrees (hhas (by simp [reads])), h.2⟩
  | byName name =>
    obtain ⟨rfl, hacc⟩ := h
    exact ⟨hagrees.imm_ofSymbol haddress rfl, hacc⟩
  | wordByName name =>
    obtain rfl := h
    exact ⟨hagrees.imm_ofSymbol haddress rfl, hhl (by simp [reads])⟩
  | wordFromDE keep =>
    exact ⟨hhl (by simp [reads]), pair_of_has hagrees (hhas (by simp [reads]))⟩
  | wordFromHL p keep =>
    exact ⟨h, pair_of_has hagrees (hhas (by simp [reads])), hhl (by simp [reads])⟩

section Placing

variable {o : Operand} (hpins : s.PinsAddresses) (hv : v ∈ s.pinned)

include hpins hv

/-- Fetching a byte gives a register that holds its low part, or the literal itself, and never the
byte that HL points at, which a store through HL would overwrite. -/
theorem tracks_fetchByte (h : Agrees ρ s m) (hmatched : s.regs.Matched) :
    Tracks ρ (fetchByte v) s m fun source _ m' =>
      source.value m' = lowOf ρ v ∧ ∀ r, source = .reg r → r ≠ .m := by
  have hload : Tracks ρ (do loadAccumulator v; return Source.reg .a) s m fun source _ m' =>
      source.value m' = lowOf ρ v ∧ ∀ r, source = .reg r → r ≠ .m := by
    refine (tracks_loadAccumulator h hmatched hpins hv).bind fun _ s' m' hleads hloaded => ?_
    refine tracks_pure hleads.agrees hleads.matched ⟨hloaded.1, ?_⟩
    rintro r ⟨⟩
    decide
  refine tracks_get ?_
  split
  next r hfind =>
    obtain ⟨hbyte, -⟩ := Option.filter_eq_some_iff.mp hfind
    obtain ⟨hne, hscalar⟩ := get_of_findByte? hbyte
    refine tracks_pure h hmatched ⟨?_, ?_⟩
    · rw [Source.value, Machine.get_of_ne hne]
      exact h.registers.byte hne hscalar
    · rintro _ ⟨⟩
      exact hne
  next c _ =>
    refine tracks_pure h hmatched ⟨?_, fun r hr => by cases hr⟩
    rw [lowOf, show ρ (.of (.const c)) = BitVec.ofInt 16 c from h.literal c, low_ofInt]
    rfl
  next => exact hload

/-- Placing a byte to be stored at an address leaves the byte in the register that the chosen store
reads. The address is checked separately. -/
theorem tracks_placeByteAt (ho : .addr o ∈ s.pinned) (h : Agrees ρ s m)
    (hmatched : s.regs.Matched) :
    Tracks ρ (placeByteAt (.addr o) v) s m fun w _ m' => w.Loaded ρ (.addr o) v m' := by
  -- Once the byte is loaded if it has to be, the address is located.
  have hlocated {s₁ : State} {m₁ : Machine} (hframe : Frame s m s₁ m₁) (h₁ : Agrees ρ s₁ m₁)
      (hmatched₁ : s₁.regs.Matched) :
      Tracks ρ (do placeByteIn v (← locateAddress (.addr o))) s₁ m₁ fun w _ m' =>
        w.Loaded ρ (.addr o) v m' := by
    have hpins₁ := hframe.pinsAddresses hpins
    refine (tracks_locateAddress h₁ hmatched₁ hpins₁ (hframe.pinned ▸ ho)).bind
      fun p s₂ m₂ hleads₂ hpair => ?_
    have hframe₂ := hframe.trans hleads₂.frame
    have hpins₂ := hframe₂.pinsAddresses hpins
    have hv₂ : v ∈ s₂.pinned := hframe₂.pinned ▸ hv
    have hload (hp : p = .d ∨ p = .b) :
        Tracks ρ (do loadAccumulator v; return Storing.atPair p) s₂ m₂
          fun w _ m' => w.Loaded ρ (.addr o) v m' :=
      (tracks_loadAccumulator hleads₂.agrees hleads₂.matched hpins₂ hv₂).bind
        fun _ s₃ m₃ hleads₃ hloaded => tracks_pure hleads₃.agrees hleads₃.matched ⟨hp, hloaded.1⟩
    cases p with
    | h =>
      exact (tracks_fetchByte hpins₂ hv₂ hleads₂.agrees hleads₂.matched).bind
        fun source s₃ m₃ hleads₃ hsource => tracks_pure hleads₃.agrees hleads₃.matched hsource
    | d => exact hload (.inl rfl)
    | b => exact hload (.inr rfl)
    | sp | psw => cases hpair
  refine tracks_get ?_
  by_cases hneeds : s.needsAccumulator v = true
  · simp only [hneeds, if_true]
    exact (tracks_loadAccumulator h hmatched hpins hv).bind fun _ s₁ m₁ hleads₁ _ =>
      hlocated hleads₁.frame hleads₁.agrees hleads₁.matched
  · simp only [hneeds]
    exact hlocated ⟨rfl, rfl, rfl, rfl, rfl, rfl, fun _ _ => rfl⟩ h hmatched

/-- Placing a word in HL, to be stored through DE or BC. -/
theorem tracks_placeFromHL {p : Pair} (hp : p = .d ∨ p = .b) (h : Agrees ρ s m)
    (hmatched : s.regs.Matched) :
    Tracks ρ (placeFromHL p (.addr o) v) s m fun w _ m' => w.Loaded ρ (.addr o) v m' := by
  refine (tracks_loadHL h hmatched hpins hv).bind fun _ s₁ m₁ hleads₁ _ => ?_
  split
  · exact after_rejectTooComplex
  · refine tracks_get ?_
    exact (tracks_saveAccumulator hleads₁.agrees hleads₁.matched).bind fun _ s₂ m₂ hleads₂ _ =>
      tracks_pure hleads₂.agrees hleads₂.matched hp

/-- Placing a word to be stored at an address, whichever of the pairs ends up with the address. -/
theorem tracks_placeWordAt (ho : .addr o ∈ s.pinned) (h : Agrees ρ s m)
    (hmatched : s.regs.Matched) :
    Tracks ρ (placeWordAt (.addr o) v) s m fun w _ m' => w.Loaded ρ (.addr o) v m' := by
  refine (tracks_locateAddress h hmatched hpins ho).bind fun p s₁ m₁ hleads₁ hpair => ?_
  have hpins₁ := hleads₁.frame.pinsAddresses hpins
  have hv₁ : v ∈ s₁.pinned := hleads₁.frame.pinned ▸ hv
  cases p with
  | h =>
    refine tracks_get (after_ite (fun _ => ?_) fun _ => ?_)
    · refine (tracks_loadPair hleads₁.agrees hleads₁.matched hpins₁ hv₁ (.inl rfl)).bind
        fun _ s₂ m₂ hleads₂ _ => ?_
      exact tracks_get (tracks_pure hleads₂.agrees hleads₂.matched trivial)
    · refine (tracks_exchange hleads₁.agrees hleads₁.matched).bind fun _ s₂ m₂ hleads₂ _ => ?_
      exact tracks_placeFromHL (hleads₂.frame.pinsAddresses hpins₁) (hleads₂.frame.pinned ▸ hv₁)
        (.inl rfl) hleads₂.agrees hleads₂.matched
  | d => exact tracks_placeFromHL hpins₁ hv₁ (.inl rfl) hleads₁.agrees hleads₁.matched
  | b => exact tracks_placeFromHL hpins₁ hv₁ (.inr rfl) hleads₁.agrees hleads₁.matched
  | sp | psw => cases hpair

/-- Placing what an assignment stores: through a pointer, at an element, or in a variable by its
name, at the width of the target. -/
theorem tracks_placeStore (htarget : targetValue t ∈ s.pinned) (h : Agrees ρ s m)
    (hmatched : s.regs.Matched) :
    Tracks ρ (placeStore t v) s m fun w _ m' => w.Loaded ρ (targetValue t) v m' := by
  unfold placeStore
  by_cases hthrough : t.throughPointer = true
  · simp only [targetValue, hthrough, if_true] at htarget ⊢
    -- The pointer is loaded into HL when the byte is at hand.
    have hpointer {s₁ : State} {m₁ : Machine} (hframe : Frame s m s₁ m₁) (h₁ : Agrees ρ s₁ m₁)
        (hmatched₁ : s₁.regs.Matched) :
        Tracks ρ (do loadHL (.of t.lhs); return Storing.atHL (← fetchByte v)) s₁ m₁ fun w _ m' =>
          w.Loaded ρ (.of t.lhs) v m' := by
      refine (tracks_loadHL h₁ hmatched₁ (hframe.pinsAddresses hpins)
        (hframe.pinned ▸ htarget)).bind
        fun _ s₂ m₂ hleads₂ _ => ?_
      have hframe₂ := hframe.trans hleads₂.frame
      exact (tracks_fetchByte (hframe₂.pinsAddresses hpins) (hframe₂.pinned ▸ hv) hleads₂.agrees
        hleads₂.matched).bind fun source s₃ m₃ hleads₃ hsource =>
          tracks_pure hleads₃.agrees hleads₃.matched hsource
    unfold Tracks
    rw [after_bind]
    refine after_requirePointer (tracks_get ?_)
    by_cases hword : s.widthOf v = .word
    · simp only [hword, if_true]
      exact (after_bind _ _).mpr (after_reject _)
    · simp only [hword, if_false]
      by_cases hload : (!v.isConst && (s.regs.findByte? v).isNone) = true
      · simp only [hload, if_true]
        exact (tracks_loadAccumulator h hmatched hpins hv).bind fun _ s₁ m₁ hleads₁ _ =>
          hpointer hleads₁.frame hleads₁.agrees hleads₁.matched
      · simp only [hload]
        exact hpointer ⟨rfl, rfl, rfl, rfl, rfl, rfl, fun _ _ => rfl⟩ h hmatched
  · simp only [targetValue, hthrough] at htarget ⊢
    simp only [Bool.false_eq_true, if_false] at htarget ⊢
    cases hlhs : t.lhs with
    | const c => exact after_reject _
    | var name =>
      rw [hlhs] at htarget
      refine tracks_get ?_
      cases hwidth : s.symbols.widthOf name with
      | byte =>
        refine after_ite (fun _ => ?_) fun _ => ?_
        · exact (tracks_fetchByte hpins hv h hmatched).bind fun source s₁ m₁ hleads₁ hsource =>
            tracks_pure hleads₁.agrees hleads₁.matched hsource
        · exact (tracks_loadAccumulator h hmatched hpins hv).bind fun _ s₁ m₁ hleads₁ hloaded =>
            tracks_pure hleads₁.agrees hleads₁.matched ⟨rfl, hloaded.1⟩
      | word =>
        exact (tracks_loadHL h hmatched hpins hv).bind fun _ s₁ m₁ hleads₁ _ =>
          tracks_pure hleads₁.agrees hleads₁.matched rfl
    | temp id =>
      rw [hlhs] at htarget
      refine tracks_get ?_
      cases hfind : Triple.find? s.triples id with
      | none => exact after_reject _
      | some target =>
        obtain rfl : target.id = id := by simpa using List.find?_some hfind
        have hbyte := tracks_placeByteAt hpins hv htarget h hmatched
        cases hop : target.op with
        | index =>
          cases hwidth : target.width with
          | byte =>
            simp only [hop, hwidth]
            exact hbyte
          | word =>
            simp only [hop, hwidth]
            exact tracks_placeWordAt hpins hv htarget h hmatched
        | deref =>
          simp only [hop]
          exact hbyte
        | _ =>
          simp only [hop]
          exact after_reject _

end Placing

/-! ## The record after a store -/

/-- The record without what a store to `written` may have changed. -/
def State.forgetting (s : State) (written : Option String) (v : Value) : State :=
  { s with regs := s.regs.forget fun u => u ≠ v && isStale s.triples written u }

/-- Registers with one value get another name for it. -/
def retagged (v w : Value) (rf : RegisterFile) : RegisterFile :=
  Reg.all.foldl (fun rf r => if rf.holds r v then rf.bind r w else rf)
    (RegisterFile.searchOrder.foldl
      (fun rf p => if rf.pairValue? p = some v then rf.bindPair p w else rf) rf)

/-- The variable that an assignment writes to; through a pointer that may be any. -/
def written? (triples : List Triple) (t : Triple) : Option String :=
  if t.throughPointer then
    none
  else
    match t.lhs with
    | .const _ => none
    | .var name => some name
    | .temp id =>
      (Triple.find? triples id).bind fun target =>
        if target.op = .index then target.lhs.var? else none

/-- The variable whose name the stored value gets. -/
def renamed? (s : State) (t : Triple) (v : Value) : Option String :=
  if t.throughPointer then
    none
  else
    t.lhs.var?.filter fun name => !s.isLiveAfter v && s.widthOf v = s.symbols.widthOf name

/-- The state after an assignment, with the record brought up to date. -/
def State.settled (s : State) (t : Triple) (v : Value) : State :=
  let s' := s.forgetting (written? s.triples t) v
  match renamed? s' t v with
  | some name => { s' with regs := retagged v (.var name) s'.regs }
  | none => s'

/-- Without a register to rename, an assignment only makes the record forget what memory has
overwritten. -/
theorem settled_of_none (h : renamed? (s.forgetting (written? s.triples t) v) t v = none) :
    s.settled t v = s.forgetting (written? s.triples t) v := by
  simp only [State.settled, h]

/-- Storing through HL is fetching the byte and then applying the store. -/
theorem after_storeAtHL {Q : Unit → State → Prop}
    (h : After (fetchByte v) s fun source s' => Q ⟨⟩ ((Storing.atHL source).apply s')) :
    After (storeAtHL v) s Q := by
  simp only [fetchByte, storeAtHL, after_bind, after_get] at h ⊢
  split
  next r hfind =>
    simp only [hfind, after_pure] at h
    exact (after_emit _).mpr h
  next c hfind =>
    simp only [hfind, after_pure] at h
    exact (after_emit _).mpr h
  next hnot hfind =>
    split at h
    next hfind' =>
      rw [hfind] at hfind'
      cases hfind'
    next c _ => exact absurd rfl (hnot c)
    next =>
      simp only [after_bind, after_pure, after_emit] at h ⊢
      exact h

/-- Storing a byte is placing it and then applying the store. The selector does both in one go, so
its branches are compared with those of the placement. -/
theorem after_storeByte {Q : Unit → State → Prop}
    (h : After (placeByteAt address v) s fun o s' => Q ⟨⟩ (o.apply s')) :
    After (storeByte address v) s Q := by
  have hpair {p : Pair} {s₁ : State}
      (h₁ : After (do loadAccumulator v; return Storing.atPair p) s₁ fun o s' =>
        Q ⟨⟩ (o.apply s')) :
      After (do loadAccumulator v; emit (.stax p)) s₁ Q := by
    simp only [after_bind, after_pure, after_emit] at h₁ ⊢
    exact h₁
  have hheld {s₁ : State} (h₁ : After (placeByteIn v .h) s₁ fun o s' => Q ⟨⟩ (o.apply s')) :
      After (storeAtHL v) s₁ Q := by
    refine after_storeAtHL ?_
    simpa only [placeByteIn, after_bind, after_pure] using h₁
  simp only [storeByte, placeByteAt, after_bind, after_get] at h ⊢
  -- A byte that only the accumulator can load is loaded before the address is looked for.
  by_cases hneeds : s.needsAccumulator v = true
  · simp only [hneeds, if_true, after_bind] at h ⊢
    refine h.mono fun _ s₁ h₁ => h₁.mono fun p s₂ h₂ => ?_
    cases p with
    | h => exact hheld h₂
    | d | b | sp | psw => exact hpair h₂
  · simp only [hneeds] at h ⊢
    simp only [Bool.false_eq_true, if_false, after_bind] at h ⊢
    refine h.mono fun p s₂ h₂ => ?_
    cases p with
    | h => exact hheld h₂
    | d | b | sp | psw => exact hpair h₂

/-- Storing a word from HL is placing it and then applying the store. -/
theorem after_storeFromHL {p : Pair} {Q : Unit → State → Prop}
    (h : After (placeFromHL p address v) s fun o s' => Q ⟨⟩ (o.apply s')) :
    After (storeFromHL p address v) s Q := by
  simp only [storeFromHL, placeFromHL, after_bind] at h ⊢
  refine h.mono fun _ s₁ h₁ => ?_
  cases hhalves : p.halves? with
  | none => exact after_rejectTooComplex
  | some halves =>
    obtain ⟨high, low⟩ := halves
    simp only [hhalves, after_bind, after_get, after_emitAll, after_record, after_pure] at h₁ ⊢
    refine h₁.mono fun _ s₂ h₂ => ?_
    cases hkeep : s₁.mustKeep address [high, low] true with
    | true =>
      simp only [hkeep, Storing.apply, Storing.code, Storing.update, if_true] at h₂ ⊢
      rw [after_emit, List.append_assoc]
      exact h₂
    | false =>
      simp only [hkeep, Storing.apply, Storing.code, Storing.update, Bool.false_eq_true, if_false,
        List.append_nil] at h₂ ⊢
      exact (after_record _).mpr h₂

/-- Storing a word is placing it and then applying the store, in each branch of the choice of
pairs. -/
theorem after_storeWord {Q : Unit → State → Prop}
    (h : After (placeWordAt address v) s fun o s' => Q ⟨⟩ (o.apply s')) :
    After (storeWord address v) s Q := by
  simp only [storeWord, placeWordAt, after_bind] at h ⊢
  refine h.mono fun p s₁ h₁ => ?_
  cases p with
  | d | b | sp | psw => exact after_storeFromHL h₁
  | h =>
    simp only [after_bind, after_get] at h₁ ⊢
    by_cases hfrom : (s₁.isInPair v .d || (v.isConst && s₁.isFree .d)) = true
    · simp only [hfrom, if_true, after_bind, after_get, after_pure] at h₁ ⊢
      refine h₁.mono fun _ s₂ h₂ => ?_
      simp only [storeFromDE, after_bind, after_get, after_emitAll]
      cases hkeep : s₂.mustKeep address [.h, .l] true with
      | true =>
        simp only [hkeep, Storing.apply, Storing.code, Storing.update, if_true] at h₂ ⊢
        rw [after_emit, List.append_assoc]
        exact h₂
      | false =>
        simp only [hkeep, Storing.apply, Storing.code, Storing.update, Bool.false_eq_true, if_false,
          List.append_nil] at h₂ ⊢
        exact (after_record _).mpr h₂
    · simp only [hfrom] at h₁ ⊢
      simp only [Bool.false_eq_true, if_false, after_bind] at h₁ ⊢
      exact h₁.mono fun _ s₂ h₂ => after_storeFromHL h₂

/-- An assignment places value and address, stores the value, and brings the record up to date. This
takes the code of the selector apart into the three steps, which are proved about one by one. -/
theorem after_selectAssign {rhs : Operand} {Q : Unit → State → Prop} (hrhs : t.rhs = some rhs)
    (h : After (placeStore t (.of rhs)) s fun o s' => s'.symbols = s.symbols ∧
      s'.triples = s.triples ∧ Q ⟨⟩ ((o.apply s').settled t (.of rhs))) :
    After (selectAssign t) s Q := by
  simp only [selectAssign, hrhs]
  by_cases hthrough : t.throughPointer = true
  · have hsettled (s' : State) : s'.settled t (.of rhs) = s'.forgetting none (.of rhs) := by
      simp only [State.settled, renamed?, written?, hthrough, if_true]
    have hstore {s₁ : State}
        (h₁ : After (loadHL (.of t.lhs)) s₁ fun _ s₂ =>
          After (fetchByte (.of rhs)) s₂ fun source s' =>
          s'.symbols = s.symbols ∧ s'.triples = s.triples ∧
            Q ⟨⟩ (((Storing.atHL source).apply s').settled t (.of rhs))) :
        After (loadHL (.of t.lhs)) s₁ fun _ s₂ => After (storeAtHL (.of rhs)) s₂ fun _ s' =>
          After (forgetStale none (.of rhs)) s' Q := by
      refine h₁.mono fun _ s₂ h₂ => after_storeAtHL (h₂.mono fun source s₃ h₃ => ?_)
      rw [hsettled] at h₃
      simp only [forgetStale, after_bind, after_get]
      exact (after_record _).mpr h₃.2.2
    simp only [placeStore, storeThroughPointer, hthrough, if_true, after_bind, after_get] at h ⊢
    refine h.mono fun _ s₁ h₁ => ?_
    by_cases hword : s₁.widthOf (.of rhs) = .word
    · simp only [hword, if_true, after_bind]
      exact after_reject _
    · simp only [hword, if_false] at h₁ ⊢
      by_cases hload : (!(Value.of rhs).isConst && (s₁.regs.findByte? (.of rhs)).isNone) = true
      · simp only [hload, if_true, after_bind, after_pure] at h₁ ⊢
        exact h₁.mono fun _ s₂ h₂ => hstore h₂
      · simp only [hload] at h₁ ⊢
        simp only [Bool.false_eq_true, if_false, after_bind, after_pure] at h₁ ⊢
        exact hstore h₁
  · have hdirect : t.throughPointer = false := Bool.eq_false_iff.mpr hthrough
    simp only [placeStore, hdirect, Bool.false_eq_true, if_false] at h ⊢
    cases hlhs : t.lhs with
    | const c => exact after_reject _
    | var name =>
      simp only [hlhs] at h
      -- The variable gets the value, whose registers may take its name.
      have hfinish (s₁ : State) (hsymbols : s₁.symbols = s.symbols)
          (h₁ : Q ⟨⟩ (s₁.settled t (.of rhs))) :
          After (forgetStale (some name) (.of rhs)) s₁ fun _ s' =>
            After (get : Selecting State) s' fun s' s'' =>
            After (if !s'.isLiveAfter (.of rhs) && s'.widthOf (.of rhs) =
              s.symbols.widthOf name then
              retag (.of rhs) (.var name) else pure ()) s'' Q := by
        simp only [forgetStale, after_bind, after_get, after_record]
        have hforget : s₁.forgetting (written? s₁.triples t) (.of rhs) =
            s₁.forgetting (some name) (.of rhs) := by
          simp only [written?, hdirect, hlhs, Bool.false_eq_true, if_false]
        refine after_ite (fun hrename => (after_record _).mpr ?_) fun hrename =>
          (after_pure _).mpr ?_
        · have hsome : renamed? (s₁.forgetting (some name) (.of rhs)) t (.of rhs) = some name := by
            simp only [renamed?, hdirect, hlhs, Operand.var?, Bool.false_eq_true, if_false,
              Option.filter_some]
            rw [if_pos]
            rw [← hsymbols] at hrename
            exact hrename
          simp only [State.settled, hforget, hsome] at h₁
          exact h₁
        · have hnone : renamed? (s₁.forgetting (some name) (.of rhs)) t (.of rhs) = none := by
            simp only [renamed?, hdirect, hlhs, Operand.var?, Bool.false_eq_true, if_false,
              Option.filter_some]
            rw [if_neg]
            rw [← hsymbols] at hrename
            exact hrename
          simp only [State.settled, hforget, hnone] at h₁
          exact h₁
      simp only [storeVariable, after_bind, after_get] at h ⊢
      cases hwidth : s.symbols.widthOf name with
      | byte =>
        simp only [hwidth] at h hfinish ⊢
        by_cases hheld : s.regs.findPair? (.addr (.var name)) = some .h
        · simp only [hheld, if_true, after_bind, after_pure] at h ⊢
          refine after_storeAtHL (h.mono fun source s₁ h₁ => ?_)
          exact hfinish ((Storing.atHL source).apply s₁) h₁.1 h₁.2.2
        · simp only [hheld, if_false, after_bind, after_pure, after_emit] at h ⊢
          exact h.mono fun _ s₁ h₁ => hfinish ((Storing.byName name).apply s₁) h₁.1 h₁.2.2
      | word =>
        simp only [hwidth] at hfinish
        simp only [hwidth, after_bind, after_pure, after_emit] at h ⊢
        exact h.mono fun _ s₁ h₁ => hfinish ((Storing.wordByName name).apply s₁) h₁.1 h₁.2.2
    | temp id =>
      simp only [hlhs, after_bind, after_get] at h ⊢
      cases hfind : Triple.find? s.triples id with
      | none => exact after_reject _
      | some target =>
        simp only [hfind] at h ⊢
        -- Only copies of memory are forgotten.
        have hfinish {written : Option String} {s₁ : State} (htriples : s₁.triples = s.triples)
            (hwritten : (if target.op = .index then target.lhs.var? else none) = written)
            (h₁ : Q ⟨⟩ (s₁.settled t (.of rhs))) : After (forgetStale written (.of rhs)) s₁ Q := by
          have hvar : (Operand.temp id).var? = none := rfl
          have hforget : s₁.settled t (.of rhs) = s₁.forgetting written (.of rhs) := by
            simp only [State.settled, renamed?, hvar, written?, hdirect, hlhs, htriples,
              hfind, hwritten,
              Bool.false_eq_true, if_false, Option.filter_none, Option.bind_some]
          rw [hforget] at h₁
          simp only [forgetStale, after_bind, after_get]
          exact (after_record _).mpr h₁
        cases hop : target.op with
        | index =>
          simp only [hop, storeElement] at h ⊢
          cases hwidth : target.width with
          | byte =>
            simp only [hwidth, after_bind] at h ⊢
            refine after_storeByte (h.mono fun o s₁ h₁ => ?_)
            exact hfinish h₁.2.1 (by rw [hop, if_pos rfl]) h₁.2.2
          | word =>
            simp only [hwidth, after_bind] at h ⊢
            refine after_storeWord (h.mono fun o s₁ h₁ => ?_)
            exact hfinish h₁.2.1 (by rw [hop, if_pos rfl]) h₁.2.2
        | deref =>
          simp only [hop, after_bind] at h ⊢
          refine after_storeByte (h.mono fun o s₁ h₁ => ?_)
          exact hfinish h₁.2.1 (by rw [hop]; rfl) h₁.2.2
        | _ => exact after_reject _

/-! ## What the record is worth after a store -/

section Settled

variable {ρ' : Valuation} {rf : RegisterFile} {rs : Registers Byte} {w : Value}

/-- A record that is right under one valuation is right under any other that agrees on all that is
recorded. -/
theorem Describes.revalue (h : rf.Describes ρ rs)
    (hρ : ∀ r u, r ≠ .m → (rf.get r).value? = some u → ρ' u = ρ u) : rf.Describes ρ' rs := by
  intro r hr
  have hholds := h r hr
  cases hcontent : rf.get r with
  | empty => trivial
  | scalar u =>
    rw [hcontent] at hholds
    show rs.get r = Side.low.part (ρ' u)
    rw [hρ r u hr (by rw [hcontent]; rfl)]
    exact hholds
  | half u side =>
    rw [hcontent] at hholds
    show rs.get r = side.part (ρ' u)
    rw [hρ r u hr (by rw [hcontent]; rfl)]
    exact hholds

/-- What is forgotten register by register: what is left was there before, and need not be
forgotten. Clearing one half of a pair clears the other half too, so a register may be empty
although nothing asked for it. -/
theorem get_foldl_clear {p : Value → Bool} (regs : List Reg) {q : Reg} (hregs : ∀ r ∈ regs, r ≠ .m)
    (hq : q ≠ .m) (rf : RegisterFile) :
    let forgotten := regs.foldl (fun rf r => if (rf.get r).value?.any p then rf.clear r else rf) rf
    forgotten.get q = .empty ∨
      forgotten.get q = rf.get q ∧ (q ∈ regs → (rf.get q).value?.any p = false) := by
  induction regs generalizing rf with
  | nil => exact .inr ⟨rfl, fun h => by cases h⟩
  | cons r rest ih =>
    obtain ⟨hr, hrest⟩ := List.forall_mem_cons.mp hregs
    dsimp only [List.foldl_cons]
    -- Induction on the registers that are gone through. The record at the start of the rest is the
    -- one with this register cleared, or the same one.
    by_cases hany : (rf.get r).value?.any p = true
    · rw [if_pos hany]
      obtain hempty | ⟨hsame, hnot⟩ := ih hrest (rf.clear r)
      · exact .inl hempty
      · by_cases hlost : q ∈ rf.lost r
        · left
          rw [hsame, get_clear hr hq, if_pos hlost]
        · have hget := get_clear_of_not_mem hq hlost
          refine .inr ⟨hsame.trans hget, fun hmem => ?_⟩
          obtain rfl | hmem := List.mem_cons.mp hmem
          · exact absurd mem_lost_self hlost
          · rw [← hget]
            exact hnot hmem
    · rw [if_neg hany]
      obtain hempty | ⟨hsame, hnot⟩ := ih hrest rf
      · exact .inl hempty
      · refine .inr ⟨hsame, fun hmem => ?_⟩
        obtain rfl | hmem := List.mem_cons.mp hmem
        · exact Bool.eq_false_iff.mpr hany
        · exact hnot hmem

/-- What is still recorded after forgetting was recorded before, and is none of what is
forgotten. -/
theorem get_forget {p : Value → Bool} {r : Reg} {u : Value} (hr : r ≠ .m)
    (hu : ((rf.forget p).get r).value? = some u) :
    (rf.forget p).get r = rf.get r ∧ p u = false := by
  have hall : r ∈ Reg.all := by cases r <;> first | decide | exact absurd rfl hr
  obtain hempty | ⟨hsame, hnot⟩ := get_foldl_clear (p := p) Reg.all (by decide) hr rf
  · rw [RegisterFile.forget, hempty] at hu
    cases hu
  · rw [RegisterFile.forget, hsame] at hu
    exact ⟨hsame, by simpa [hu] using hnot hall⟩

/-- Forgetting does not make a record wrong, whatever is forgotten. -/
theorem Describes.forget {p : Value → Bool} (h : rf.Describes ρ rs) :
    (rf.forget p).Describes ρ rs := by
  intro r hr
  have hall : ∀ r ∈ Reg.all, r ≠ .m := by decide
  obtain hempty | ⟨hsame, -⟩ := get_foldl_clear (p := p) Reg.all hall hr rf
  · rw [RegisterFile.forget, hempty]
    trivial
  · rw [RegisterFile.forget, hsame]
    exact h r hr

/-- A register with a byte gets another name for it, which has to stand for the same byte. -/
theorem Describes.rebind {r : Reg} (h : rf.Describes ρ rs) (hr : r ≠ .m)
    (hv : rf.holds r v = true) (hlow : Side.low.part (ρ w) = Side.low.part (ρ v)) :
    (rf.bind r w).Describes ρ rs := by
  have hscalar : rf.get r = .scalar v := by simpa [RegisterFile.holds] using hv
  rw [RegisterFile.bind, if_neg hr]
  refine h.clear.put_get (c := .scalar w) hr ?_
  show rs.get r = Side.low.part (ρ w)
  rw [hlow]
  exact h.byte hr hscalar

/-- Pairs that hold a value get another name for it, one after the other. -/
theorem describes_foldl_bindPair (hfull : ρ w = ρ v) (pairs : List Pair) {m : Machine}
    (h : rf.Describes ρ m.registers) :
    (pairs.foldl (fun rf p => if rf.pairValue? p = some v then rf.bindPair p w else rf)
      rf).Describes ρ m.registers := by
  induction pairs generalizing rf with
  | nil => exact h
  | cons p rest ih =>
    refine ih ?_
    dsimp only
    split
    next hv => exact Describes.renamePair h hv hfull
    next => exact h

theorem foldl_bindPair_of_none (pairs : List Pair) (h : ∀ p, rf.pairValue? p ≠ some v) :
    pairs.foldl (fun rf p => if rf.pairValue? p = some v then rf.bindPair p w else rf) rf = rf := by
  induction pairs with
  | nil => rfl
  | cons p rest ih => rw [List.foldl_cons, if_neg (h p), ih]

/-- Registers that hold the low byte of a value get another name for it, one after the other. -/
theorem describes_foldl_bind (hlow : Side.low.part (ρ w) = Side.low.part (ρ v)) (regs : List Reg)
    (hregs : ∀ r ∈ regs, r ≠ .m) (h : rf.Describes ρ rs) :
    (regs.foldl (fun rf r => if rf.holds r v then rf.bind r w else rf) rf).Describes ρ rs := by
  induction regs generalizing rf with
  | nil => exact h
  | cons r rest ih =>
    obtain ⟨hr, hrest⟩ := List.forall_mem_cons.mp hregs
    refine ih hrest ?_
    dsimp only
    split
    next hv => exact Describes.rebind h hr hv hlow
    next => exact h

/-- Registers with a value hold another one as well, if that has the same low byte, and is the same
where a pair holds it. -/
theorem Describes.retagged {m : Machine} (h : rf.Describes ρ m.registers)
    (hlow : Side.low.part (ρ w) = Side.low.part (ρ v))
    (hfull : (∃ p, rf.pairValue? p = some v) → ρ w = ρ v) :
    (retagged v w rf).Describes ρ m.registers := by
  refine describes_foldl_bind hlow _ (by decide) ?_
  by_cases hpair : ∃ p, rf.pairValue? p = some v
  · exact describes_foldl_bindPair (hfull hpair) _ h
  · rw [foldl_bindPair_of_none _ fun p hp => hpair ⟨p, hp⟩]
    exact h

/-- Renaming keeps the halves of pairs together, since both halves are renamed at once. -/
theorem Matched.retagged (h : rf.Matched) : (retagged v w rf).Matched := by
  have hpairs (pairs : List Pair) {rf : RegisterFile} (h : rf.Matched) :
      (pairs.foldl (fun rf p => if rf.pairValue? p = some v then rf.bindPair p w else rf)
        rf).Matched := by
    induction pairs generalizing rf with
    | nil => exact h
    | cons p rest ih =>
      refine ih ?_
      dsimp only
      split
      · exact h.bindPair
      · exact h
  have hregs (regs : List Reg) {rf : RegisterFile} (h : rf.Matched) :
      (regs.foldl (fun rf r => if rf.holds r v then rf.bind r w else rf) rf).Matched := by
    induction regs generalizing rf with
    | nil => exact h
    | cons r rest ih =>
      refine ih ?_
      dsimp only
      split
      · exact h.bind
      · exact h
  exact hregs _ (hpairs _ h)

/-- After a store the record is right about the values as they are now. What memory has overwritten
is forgotten, and what was stored may stand for the variable from now on. -/
theorem Writes.settles (h : Writes ρ data m₀ memory s m)
    (hfresh : ∀ u, isStale s.triples (written? s.triples t) u = false → ρ' u = ρ u)
    (hstored : (∃ r, r ≠ .m ∧ (s.regs.get r).value? = some v) → ρ' v = ρ v)
    (hrenamed : ∀ name, renamed? (s.forgetting (written? s.triples t) v) t v = some name →
      Side.low.part (ρ' (.var name)) = Side.low.part (ρ' v) ∧
        ((∃ p, s.regs.pairValue? p = some v) → ρ' (.var name) = ρ' v)) :
    (s.settled t v).regs.Describes ρ' m.registers ∧ (s.settled t v).regs.Matched := by
  -- First forget: what survives is either the stored value or no stale variable.
  have hforgotten : (s.forgetting (written? s.triples t) v).regs.Describes ρ' m.registers := by
    refine Describes.revalue (Describes.forget h.registers) fun r u hr hu => ?_
    obtain ⟨hsame, hkept⟩ := get_forget hr hu
    by_cases huv : u = v
    · subst huv
      exact hstored ⟨r, hr, hsame ▸ hu⟩
    · exact hfresh u (by simpa [huv] using hkept)
  have hmatched : (s.forgetting (written? s.triples t) v).regs.Matched := h.matched.forget _
  -- Then rename, if the selector does. A pair that holds the value after forgetting held it before.
  cases hname : renamed? (s.forgetting (written? s.triples t) v) t v with
  | none =>
    rw [settled_of_none hname]
    exact ⟨hforgotten, hmatched⟩
  | some name =>
    obtain ⟨hlow, hfull⟩ := hrenamed name hname
    have hsettled : (s.settled t v).regs =
        Select.retagged v (.var name) (s.forgetting (written? s.triples t) v).regs := by
      simp only [State.settled, hname]
    rw [hsettled]
    refine ⟨Describes.retagged hforgotten hlow ?_, Matched.retagged hmatched⟩
    rintro ⟨p, hp⟩
    obtain ⟨high, low, hhalves, hhigh, hlow'⟩ := halves?_of_pairValue? hp
    have hne := Pair.halves?_ne hhalves
    refine hfull ⟨p, (pairValue?_eq_some hhalves).mpr ⟨?_, ?_⟩⟩
    · exact (get_forget hne.1 ((congrArg Content.value? hhigh).trans rfl)).1.symm.trans hhigh
    · exact (get_forget hne.2.1 ((congrArg Content.value? hlow').trans rfl)).1.symm.trans hlow'

end Settled

end Accumulator.Select
