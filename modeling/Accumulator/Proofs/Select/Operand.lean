import Accumulator.Proofs.Select.Light
import Accumulator.Proofs.Triple.Meaning

/-!
# Loading operands

Memory provides the variables and immediates provide the literals. With a light record every such
operand can be loaded, into the accumulator or into a pair, and what is loaded is its value.
-/

namespace Accumulator.Select

open Machine RegisterFile

variable {data : Word → Prop} {quiet : Bool} {s : State} {regs : RegisterFile} {m m' : Machine}

/-! ## Variables in memory -/

variable {symbols : SymbolTable} {memory : Memory} {name : String} {place : Place}

/-- The machine has the variables where the symbols say, among the data, and there it has the bytes
of `memory`. -/
structure Provides (data : Word → Prop) (symbols : SymbolTable) (memory : Memory) (m : Machine) :
    Prop where
  addresses : m.addresses = (Machine.ofSymbols symbols).addresses
  cells : ∀ {name place}, symbols.place? name = some place → ∀ a ∈ place.cells, data a
  bytes : ∀ a, data a → m.memory.read a = memory.read a

namespace Provides

/-- Code that computes in registers leaves the addresses and the data as they were, so it leaves the
variables where they are. -/
theorem of_changes {rs : Registers Byte} (h : Provides data symbols memory m)
    (hchanges : Changes data rs m m') : Provides data symbols memory m' where
  addresses := hchanges.addresses.trans h.addresses
  cells := h.cells
  bytes a ha := (hchanges.memory a ha).trans (h.bytes a ha)

/-- The address of a variable is known to the machine, and so is an address at an offset from it. -/
theorem imm (h : Provides data symbols memory m) (hplace : symbols.place? name = some place)
    (k : Int) : m.imm (.sym name k) = .ok (place.address + BitVec.ofInt 16 k) := by
  obtain ⟨_, _, haddress, _⟩ := SymbolTable.place?_eq_some hplace
  have : m.addressOf? name = some place.address := by
    rw [addressOf?, h.addresses]
    exact haddress
  simp only [Machine.imm, this]

/-- Without an offset it is the address of the variable itself. -/
theorem imm_ofSymbol (h : Provides data symbols memory m)
    (hplace : symbols.place? name = some place) : m.imm (.ofSymbol name) = .ok place.address := by
  rw [Imm.ofSymbol, h.imm hplace]
  simp

/-- The low byte of a variable. -/
theorem low (h : Provides data symbols memory m) (hplace : symbols.place? name = some place) :
    data place.address ∧ m.memory.read place.address = (place.read memory).setWidth 8 := by
  have hcell : place.address ∈ place.cells := by
    unfold Place.cells
    split <;> simp
  have hdata := h.cells hplace place.address hcell
  refine ⟨hdata, ?_⟩
  rw [h.bytes _ hdata, Place.read]
  split
  · simp
  · exact (low_of_append _ _).symm

/-- The accumulator is loaded with the low byte of a variable, or with all of it if it is a byte. -/
theorem computes_lda (h : Provides data symbols memory m)
    (hplace : symbols.place? name = some place) :
    Computes data [.lda (.ofSymbol name)] m
      { m.registers with a := (place.read memory).setWidth 8 } := by
  obtain ⟨hdata, hlow⟩ := h.low hplace
  have hstep : m.execute (.lda (.ofSymbol name)) =
      .ok (m.set .a (m.memory.read place.address)) := by
    simp only [execute, h.imm_ofSymbol hplace]
    rfl
  rw [← hlow]
  refine .of_execute rfl rfl (by rintro ⟨⟩) rfl ?_ hstep rfl
  intro _ a ha
  obtain rfl : a = place.address := by
    simpa [touches, loads, immAddress?, h.imm_ofSymbol hplace, storeCells, stores,
      Except.toOption] using ha
  exact hdata

/-- HL is loaded with a word variable, both of whose bytes are data. -/
theorem computes_lhld (h : Provides data symbols memory m)
    (hplace : symbols.place? name = some place) (hword : place.width = .word) :
    Computes data [.lhld (.ofSymbol name)] m (withHL m.registers (place.read memory)) := by
  have hcells : ∀ a ∈ [place.address, place.address + 1], data a := by
    intro a ha
    refine h.cells hplace a ?_
    rwa [Place.cells, hword]
  have hread : place.read memory = m.memory.readWord place.address := by
    rw [Place.read, hword]
    simp only [Memory.readWord, h.bytes _ (hcells place.address (by simp)),
      h.bytes _ (hcells (place.address + 1) (by simp))]
  have hstep : m.execute (.lhld (.ofSymbol name)) =
      .ok (m.setPair .h (m.memory.readWord place.address)) := by
    simp only [execute, h.imm_ofSymbol hplace]
    rfl
  rw [hread]
  refine .of_execute rfl rfl (by rintro ⟨⟩) rfl ?_ hstep rfl
  intro _ a ha
  refine hcells a ?_
  simpa [touches, loads, immAddress?, h.imm_ofSymbol hplace, storeCells, stores, wordCells,
    Except.toOption] using ha

end Provides

/-! ## Loading operands -/

/-- Nothing is saved, and memory provides the variables. -/
structure Ready (data : Word → Prop) (memory : Memory) (s : State) (m : Machine) : Prop where
  spill : s.spill = none
  provides : Provides data s.symbols memory m

/-- The code of one step leaves everything ready for the next. -/
theorem Ready.of_changes {rs : Registers Byte} (h : Ready data memory s m)
    (hchanges : Changes data rs m m') : Ready data memory s m' :=
  ⟨h.spill, h.provides.of_changes hchanges⟩

variable {o : Operand} {x : Word}

theorem isConst_of (h : o.isConst = false) : (Value.of o).isConst = false := by
  cases o <;> first | rfl | cases h

/-- An operand with a value of its own is a literal or a variable, and both can be loaded again. -/
theorem reloadable_of_value? (hx : o.value? symbols { memory } = some x) :
    reloadable (.of o) = true := by
  cases o with
  | const | var => rfl
  | temp => cases hx

theorem setWidth_ofInt (c : Int) : (BitVec.ofInt 16 c).setWidth 8 = lowByte c := by
  rw [← append_ofInt]
  exact low_of_append _ _

theorem ofInt_emod (c : Int) : BitVec.ofInt 16 (c % 65536) = BitVec.ofInt 16 c := by
  apply BitVec.eq_of_toInt_eq
  rw [BitVec.toInt_ofInt, BitVec.toInt_ofInt]
  exact Int.emod_bmod c 65536

/-- A pair is loaded with a literal. The instruction has it modulo 65536, which is the same word. -/
theorem computes_lxi_const {p : Pair} (hp : p.isGeneral = true) (c : Int) :
    Computes data [.lxi p (.num (c % 65536))] m (m.setPair p (.ofInt 16 c)).registers :=
  computes_lxi hp (by rw [Machine.imm, ofInt_emod])

/-- A byte with zero above it is the byte extended to a word. -/
theorem zero_append_byte (b : Byte) : (0 : Byte) ++ b = b.setWidth 16 := by
  apply BitVec.eq_of_toNat_eq
  have := b.isLt
  simp only [toNat_append_byte, BitVec.toNat_setWidth, BitVec.ofNat_eq_ofNat, BitVec.toNat_ofNat]
  omega

/-- The low byte of a word that is an extended byte is all of it. -/
theorem append_setWidth {place : Place} (hbyte : place.width = .byte) :
    (0 : Byte) ++ (place.read memory).setWidth 8 = place.read memory := by
  rw [Place.read, hbyte, zero_append_byte]
  simp

/-- The value of a byte variable has zero above its low byte. -/
theorem value?_of_isByte (hvar : o.isConst = false) (hbyte : s.isByte (.of o) = true)
    (hx : o.value? s.symbols { memory } = some x) : (0 : Byte) ++ x.setWidth 8 = x := by
  cases o with
  | const => cases hvar
  | temp => cases hx
  | var name =>
    obtain ⟨place, hplace, rfl⟩ := Option.map_eq_some_iff.mp hx
    refine append_setWidth ?_
    rw [SymbolTable.width_of_place? hplace]
    exact of_decide_eq_true hbyte

/-- A variable that is no byte has a word of memory. -/
theorem width_eq_word (hplace : s.symbols.place? name = some place)
    (hword : s.isByte (.of (.var name)) = false) : place.width = .word := by
  have hwidth : place.width = s.widthOf (.of (.var name)) := SymbolTable.width_of_place? hplace
  cases hw : place.width with
  | word => rfl
  | byte =>
    rw [State.isByte, ← hwidth, hw] at hword
    cases hword

/-- Without a word in HL, nothing is behind HL. -/
theorem isAtM_of_get_h {v : Value} (h : ∀ u, s.regs.get .h ≠ .half u .high) :
    s.isAtM v = false := by
  cases v with
  | addr => rfl
  | of o =>
    have hpair : s.regs.findPair? (.addr o) ≠ some .h := by
      intro hfind
      have hfull := List.find?_some hfind
      simp [pairMatch?, Pair.halves?, h (.addr o)] at hfull
    simp [State.isAtM, hpair]

/-- No register holds the operand, and HL does not point at it. -/
structure Absent (s : State) (regs : RegisterFile) (o : Operand) : Prop where
  findByte? : regs.findByte? (.of o) = none
  isAtM : ({ s with regs } : State).isAtM (.of o) = false

/-- An operand that is in no register is loaded into the accumulator by one instruction, and the
record is left to the caller. -/
theorem yields_fillAccumulator (h : Ready data memory s m)
    (hx : o.value? s.symbols { memory } = some x) (habsent : Absent s regs o) :
    Yields data quiet 1 (fillAccumulator (.of o)) s regs m fun _ regs' rs =>
      regs' = regs ∧ rs = { m.registers with a := x.setWidth 8 } := by
  rw [fillAccumulator]
  refine .get_bind fun code => ?_
  have hm : ({ s with code, regs } : State).isAtM (.of o) = false := habsent.isAtM
  simp only [habsent.findByte?, hm]
  cases o with
  | const c =>
    obtain rfl : BitVec.ofInt 16 c = x := Option.some.inj hx
    rw [setWidth_ofInt]
    exact .emit rfl (.of_local rfl rfl rfl) ⟨rfl, rfl⟩
  | var name =>
    obtain ⟨place, hplace, rfl⟩ := Option.map_eq_some_iff.mp hx
    exact .emit rfl (h.provides.computes_lda hplace) ⟨rfl, rfl⟩
  | temp => cases hx

theorem holds_of_findByte? {v : Value} (h : regs.findByte? v = none) :
    regs.holds .a v = false := by
  have := List.find?_eq_none.mp h .a (by decide)
  simpa using this

/-- An operand that no register holds is loaded into the accumulator, by one instruction. It is
recorded there if it is a byte or a variable. -/
theorem yields_loadAccumulator (hlight : regs.LightAt [.a]) (h : Ready data memory s m)
    (hx : o.value? s.symbols { memory } = some x) (habsent : Absent s regs o) :
    Yields data quiet 1 (loadAccumulator (.of o)) s regs m fun _ regs' rs =>
      regs' = (if s.isByte (.of o) || (Value.of o).isVar then regs.bind .a (.of o)
        else regs.clear .a) ∧
      rs = { m.registers with a := x.setWidth 8 } := by
  rw [loadAccumulator]
  refine .get_bind fun code => ?_
  simp only [holds_of_findByte? habsent.findByte?]
  refine .record_bind (fun _ => saveAccumulator_of_light hlight) ?_
  refine (yields_fillAccumulator h hx habsent).bind (k := 0) ?_
  rintro _ regs' m' - ⟨rfl, hrs⟩
  refine .get_bind fun code => ?_
  show Yields _ _ _ (if (s.isByte (.of o) || (Value.of o).isVar) = true then _ else _) _ _ _ _
  cases s.isByte (.of o) || (Value.of o).isVar with
  | true => exact .of_record (fun _ => rfl) ⟨rfl, hrs⟩
  | false => exact .of_record (fun _ => rfl) ⟨rfl, hrs⟩

theorem loadAccumulator_of_holds {v : Value} {code : List Instr} (h : regs.holds .a v = true) :
    loadAccumulator v { s with code, regs } = .ok () { s with code, regs } := by
  rw [loadAccumulator, get_run]
  simp only [h]
  rfl

/-- The operand has to come from memory or from an immediate, or the accumulator holds it. -/
def AtHand (s : State) (regs : RegisterFile) (m : Machine) (o : Operand) (x : Word) : Prop :=
  Absent s regs o ∨ regs.holds .a (.of o) = true ∧ m.registers.a = x.setWidth 8

theorem bind_of_holds {v : Value} (h : regs.holds .a v = true) : regs.bind .a v = regs := by
  have hget : regs.slots.a = .scalar v := of_decide_eq_true h
  have hclear : regs.clear .a = regs.put .a .empty := by
    simp only [RegisterFile.clear, RegisterFile.get, Registers.get, hget]
    rfl
  rw [RegisterFile.bind, hclear, ← hget]
  rfl

/-- Bytes and variables are recorded when they are loaded. -/
theorem yields_loadByte (hlight : regs.LightAt [.a]) (h : Ready data memory s m)
    (hx : o.value? s.symbols { memory } = some x) (hhand : AtHand s regs m o x)
    (hkind : (s.isByte (.of o) || (Value.of o).isVar) = true) :
    Yields data quiet 1 (loadAccumulator (.of o)) s regs m fun _ regs' rs =>
      regs' = regs.bind .a (.of o) ∧ rs = { m.registers with a := x.setWidth 8 } := by
  rcases hhand with habsent | ⟨hholds, hvalue⟩
  · refine (yields_loadAccumulator hlight h hx habsent).mono (Nat.le_refl 1) ?_
    rw [if_pos hkind]
    exact fun _ _ _ => id
  · refine .of_record (fun _ => loadAccumulator_of_holds hholds) ⟨(bind_of_holds hholds).symm, ?_⟩
    rw [← hvalue]

/-- A byte is found in the accumulator or loaded there. Either way the accumulator has it
afterwards, and that is recorded. -/
theorem yields_locateByte (hlight : regs.LightAt [.a]) (h : Ready data memory s m)
    (hx : o.value? s.symbols { memory } = some x) (hhand : AtHand s regs m o x)
    (hbyte : s.isByte (.of o) = true) {avoid : List Reg} (havoid : avoid.contains .a = false) :
    Yields data quiet 1 (locateByte (.of o) avoid) s regs m fun r regs' rs =>
      r = .a ∧ regs' = regs.bind .a (.of o) ∧ rs = { m.registers with a := x.setWidth 8 } := by
  have hload : Yields data quiet 1 (loadAccumulator (.of o)) s regs m _ :=
    yields_loadByte hlight h hx hhand (by rw [hbyte]; rfl)
  rw [locateByte]
  refine .get_bind fun code => ?_
  rcases hhand with habsent | ⟨hholds, hvalue⟩
  · simp only [habsent.findByte?]
    refine hload.bind (k := 0) ?_
    rintro _ regs' m' - ⟨rfl, hrs⟩
    exact .pure ⟨rfl, rfl, hrs⟩
  · have hfind : regs.findByte? (.of o) = some .a := by
      simp only [RegisterFile.findByte?, Reg.all, List.find?_cons, hholds]
    simp only [hfind, havoid, Bool.false_eq_true, if_false]
    refine .pure ⟨rfl, (bind_of_holds hholds).symm, ?_⟩
    rw [← hvalue]

/-- A value that no pair holds and that is not saved has to be loaded into HL anew. -/
theorem loadHLHeld_of_absent {v : Value} {code : List Instr} (hwide : regs.findWide? v = none)
    (hspill : s.spill = none) :
    loadHLHeld v { s with code, regs } = .ok false { s with code, regs } := by
  rw [loadHLHeld, get_run]
  simp only [hwide, State.isSaved, hspill]
  rfl

/-- A word variable or a literal goes to HL directly, in one instruction. HL is light, so it can be
forgotten without code. -/
theorem yields_loadHL_wide (hlight : regs.LightAt [.h, .l]) (h : Ready data memory s m)
    (hx : o.value? s.symbols { memory } = some x) (hwide : regs.findWide? (.of o) = none)
    (hkind : o.isConst = true ∨ s.isByte (.of o) = false) :
    Yields data quiet 1 (loadHL (.of o)) s regs m fun _ regs' rs =>
      regs' = (regs.clearPair .h).bindPair .h (.of o) ∧ rs = withHL m.registers x := by
  suffices hdirect : Yields data quiet 1 (loadHLDirect (.of o)) s regs m fun b regs' rs =>
      b = true ∧ regs' = (regs.clearPair .h).bindPair .h (.of o) ∧ rs = withHL m.registers x by
    refine hdirect.bind (k := 0) ?_
    rintro _ regs' m' - ⟨rfl, hregs, hrs⟩
    exact .pure ⟨hregs, hrs⟩
  -- No pair holds it and HL is light, so nothing has to be moved or saved first.
  have hvacate (code : List Instr) : vacateHL none { s with code, regs } = _ :=
    vacateHL_of_light hlight
  refine .record_bind (fun _ => loadHLHeld_of_absent hwide h.spill) (.get_bind fun code => ?_)
  cases o with
  | const c =>
    obtain rfl : BitVec.ofInt 16 c = x := Option.some.inj hx
    refine .record_bind hvacate (.emit_bind (n := 0) rfl (computes_lxi_const rfl c) ?_)
    intro m' hrs _
    exact .update_bind (.pure ⟨rfl, rfl, hrs⟩)
  | var name =>
    obtain ⟨place, hplace, rfl⟩ := Option.map_eq_some_iff.mp hx
    have hword : s.isByte (.of (.var name)) = false := hkind.resolve_left nofun
    show Yields _ _ _ (if s.isByte (.of (.var name)) = true then _ else _) _ _ _ _
    rw [hword]
    refine .record_bind hvacate ?_
    refine .emit_bind (n := 0) rfl (h.provides.computes_lhld hplace (width_eq_word hplace hword)) ?_
    intro m' hrs _
    exact .update_bind (.pure ⟨rfl, rfl, hrs⟩)
  | temp => cases hx

/-- A byte variable goes to HL through the accumulator, which keeps it, and zero goes above it. If
the accumulator has the byte already, it is not loaded again. -/
theorem yields_loadHL_byte (hlight : regs.LightAt [.a])
    (hlight' : (regs.bind .a (.of o)).LightAt [.h, .l]) (h : Ready data memory s m)
    (hx : o.value? s.symbols { memory } = some x) (hwide : regs.findWide? (.of o) = none)
    (hhand : AtHand s regs m o x) (hvar : o.isConst = false) (hbyte : s.isByte (.of o) = true) :
    Yields data quiet 3 (loadHL (.of o)) s regs m fun _ regs' rs =>
      regs' = ((regs.bind .a (.of o)).clearPair .h).bindExtended .h (.of o) ∧
      rs = { withHL m.registers x with a := x.setWidth 8 } := by
  have hdirect (code : List Instr) :
      loadHLDirect (.of o) { s with code, regs } = .ok false { s with code, regs } := by
    refine (bind_run (loadHLHeld_of_absent hwide h.spill)).trans ?_
    cases o with
    | const => cases hvar
    | temp => rfl
    | var name =>
      show (if s.isByte (.of (.var name)) = true then _ else _ : Selecting Bool) _ = _
      rw [if_pos hbyte]
      rfl
  refine .record_bind hdirect (.get_bind fun code => ?_)
  show Yields _ _ _ (if s.isByte (.of o) = true then _ else _) _ _ _ _
  rw [if_pos hbyte]
  refine (yields_locateByte hlight h hx hhand hbyte rfl).bind (k := 2) ?_
  rintro r regs' m' - ⟨rfl, rfl, hrs⟩
  refine .record_bind (fun _ => vacateHL_of_light hlight') ?_
  -- The two moves extend the byte, and its value has zero above it.
  have hmoves : Computes data [.mov .l .a, .mvi .h 0] m'
      { withHL m.registers x with a := x.setWidth 8 } := by
    refine .of_local rfl rfl ?_
    have hword := value?_of_isByte hvar hbyte hx
    rw [← hword, withHL, high_of_append, low_of_append, hword]
    simp [Machine.set, Machine.get, hrs, Registers.set, Registers.get]
  refine .emitAll_bind (n := 0) rfl hmoves ?_
  intro m'' hrs' _
  exact .record ⟨rfl, hrs'⟩

/-- Load an operand that is in no pair into HL. -/
theorem yields_loadHL (hlight : regs.Light) (h : Ready data memory s m)
    (hx : o.value? s.symbols { memory } = some x) (hwide : regs.findWide? (.of o) = none)
    (hhand : o.isConst = false → AtHand s regs m o x) :
    Yields data quiet 3 (loadHL (.of o)) s regs m fun _ regs' rs =>
      regs'.Light ∧ ∃ y, rs = { withHL m.registers x with a := y } := by
  have hreload := reloadable_of_value? hx
  by_cases hkind : o.isConst = true ∨ s.isByte (.of o) = false
  · refine (yields_loadHL_wide (hlight.at (by decide)) h hx hwide hkind).mono (by decide) ?_
    rintro _ _ _ ⟨rfl, rfl⟩
    exact ⟨hlight.clearPair.bindPair hreload, _, rfl⟩
  · rw [not_or, Bool.not_eq_true, Bool.not_eq_false] at hkind
    refine (yields_loadHL_byte (hlight.at (by decide)) ((hlight.bind hreload).at (by decide)) h hx
      hwide (hhand hkind.1) hkind.1 hkind.2).mono (by decide) ?_
    rintro _ _ _ ⟨rfl, rfl⟩
    exact ⟨(hlight.bind hreload).clearPair.bindExtended hreload, _, rfl⟩

/-! ## From an empty record

Two operands of a word operation go to HL and DE, the second one first. A count goes to `c`. -/

theorem absent_empty (s : State) (o : Operand) : Absent s {} o :=
  ⟨rfl, isAtM_of_get_h nofun⟩

theorem atHand_empty (s : State) (m : Machine) (o : Operand) (x : Word) : AtHand s {} m o x :=
  .inl (absent_empty s o)

theorem isFree_of_empty {p : Pair} {high low : Reg} (hp : p.halves? = some (high, low))
    (hregs : s.regs = {}) : s.isFree p = true := by
  have hvalue (r : Reg) : (s.regs.get r).value? = none := by
    rw [hregs]
    cases r <;> rfl
  simp [State.isFree, hp, hvalue]

/-- A value that no pair holds and that is not saved has to be loaded into a pair anew. -/
theorem loadPairHeld_of_absent {p : Pair} {v : Value} {code : List Instr}
    (hwide : regs.findWide? v = none) (hspill : s.spill = none) :
    loadPairHeld p v { s with code, regs } = .ok false { s with code, regs } := by
  rw [loadPairHeld, get_run]
  simp only [hwide, State.isSaved, hspill]
  rfl

/-- The record with an operand in DE, in full or extended. -/
def InDE (v : Value) (regs : RegisterFile) : Prop :=
  regs = ({} : RegisterFile).bindPair .d v ∨
    regs = (({} : RegisterFile).bind .a v).bindExtended .d v

/-- With an empty record, an operand is loaded into DE: a literal at once, a byte through the
accumulator, and a word through HL and an exchange. -/
theorem yields_loadPair (h : Ready data memory s m) (hx : o.value? s.symbols { memory } = some x) :
    Yields data quiet 3 (loadPair .d (.of o)) s {} m fun _ regs rs =>
      InDE (.of o) regs ∧ rs.d ++ rs.e = x := by
  have hvacate (code : List Instr) : vacatePair .d { s with code, regs := {} } = _ :=
    vacatePair_of_light rfl (light_empty.at (by decide))
  refine .record_bind (fun _ => loadPairHeld_of_absent rfl h.spill) (.get_bind fun code => ?_)
  cases o with
  | temp => cases hx
  | const c =>
    obtain rfl : BitVec.ofInt 16 c = x := Option.some.inj hx
    refine .record_bind hvacate (.le
      (.emit_bind (n := 0) rfl (computes_lxi_const rfl c) ?_) (by decide))
    intro m' hrs _
    refine .record ⟨.inl rfl, ?_⟩
    rw [hrs]
    exact high_append_low _
  | var name =>
    show Yields _ _ _ (if s.isByte (.of (.var name)) = true then _ else _) _ _ _ _
    cases hbyte : s.isByte (.of (.var name)) with
    | true =>
      refine (yields_locateByte (light_empty.at (by decide)) h hx (atHand_empty s m _ x) hbyte
        rfl).bind (k := 2) ?_
      rintro r regs' m' - ⟨rfl, rfl, hrs⟩
      have hlight : (({} : RegisterFile).bind .a (.of (.var name))).Light := light_empty.bind rfl
      refine .record_bind (fun _ => vacatePair_of_light rfl (hlight.at (by decide))) ?_
      refine .emitAll_bind (n := 0) rfl (.of_local rfl rfl rfl) ?_
      intro m'' hrs' _
      refine .record ⟨.inr rfl, ?_⟩
      rw [hrs', ← value?_of_isByte rfl hbyte hx]
      simp [Machine.set, Machine.get, hrs, Registers.set, Registers.get]
    | false =>
      obtain ⟨place, hplace, rfl⟩ := Option.map_eq_some_iff.mp hx
      -- A word passes through HL, and the exchange takes it to DE.
      have hload : Computes data [.lhld (.ofSymbol name), .xchg] m
          (m.exchanged.setPair .d (place.read memory)).registers := by
        refine (h.provides.computes_lhld hplace (width_eq_word hplace hbyte)).append ?_
        intro m₁ hchanges
        refine .of_local rfl (by simp only [List.foldlM, execute]; rfl) ?_
        simp [Machine.setPair, Machine.pair, Machine.hl, exchanged, hchanges.registers, withHL,
          high_append_low, high_of_append, low_of_append]
      refine .record_bind hvacate (.get_bind fun code => ?_)
      rw [isFree_of_empty rfl rfl]
      refine .record_bind (fun _ => vacateHL_of_light (light_empty.at (by decide))) ?_
      refine .le (.emitAll_bind (n := 0) rfl hload ?_) (Nat.le_succ 2)
      intro m' hrs _
      refine .record ⟨.inl rfl, ?_⟩
      rw [hrs]
      exact high_append_low _

/-- The record after DE was loaded says nothing of another value. -/
theorem InDE.absent {u v : Value} (h : InDE v regs) (hne : v ≠ u) :
    regs.findWide? u = none ∧ (u.isConst = false → regs.findByte? u = none) := by
  have hslots : regs = { slots := ⟨.empty, .empty, .empty, .half v .high, .half v .low, .empty,
      .empty⟩ } ∨ regs = { slots := ⟨.scalar v, .empty, .empty, .scalar (.const 0), .scalar v,
      .empty, .empty⟩ } := h
  rcases hslots with rfl | rfl
  · refine ⟨?_, fun _ => rfl⟩
    simp [RegisterFile.findWide?, searchOrder, pairMatch?, Pair.halves?, RegisterFile.get,
      Registers.get, hne]
  · refine ⟨?_, fun hconst => ?_⟩
    · simp [RegisterFile.findWide?, searchOrder, pairMatch?, Pair.halves?, RegisterFile.get,
        Registers.get, hne]
    · have hzero : Value.const 0 ≠ u := by
        rintro rfl
        cases hconst
      simp [RegisterFile.findByte?, Reg.all, RegisterFile.holds, RegisterFile.get, Registers.get,
        hne, hzero]

theorem InDE.light {v : Value} (h : InDE v regs) (hv : reloadable v = true) : regs.Light := by
  rcases h with rfl | rfl
  · exact light_empty.bindPair hv
  · exact (light_empty.bind hv).bindExtended hv

/-- HL is empty after DE was loaded, even if the word came through it. -/
theorem InDE.get_h {v : Value} (h : InDE v regs) : regs.get .h = .empty := by
  rcases h with rfl | rfl <;> rfl

/-- HL is copied to DE, in the record and in the machine. -/
theorem yields_copyHL :
    Yields data quiet 2 (copyPair .h .d) s regs m fun _ regs' rs =>
      regs' = regs.copyPair .h .d ∧
      rs = { m.registers with d := m.registers.h, e := m.registers.l } :=
  .emitAll_bind (n := 0) rfl (.of_local rfl rfl rfl) fun _ hrs _ =>
    .record ⟨rfl, hrs⟩

theorem isInPair_of_empty (hregs : s.regs = {}) (v : Value) (p : Pair) :
    s.isInPair v p = false := by
  cases p <;> simp [State.isInPair, pairMatch?, Pair.halves?, hregs, RegisterFile.get,
    Registers.get, Registers.replicate]

/-- With an empty record the placing of two operands is simple: the second goes to DE and then the
first to HL, and an operand that is both is loaded only once and copied. -/
theorem placeOperands_of_empty (hregs : s.regs = {}) {v w : Value} {fixed : Option Pair}
    (hfixed : ∀ p ∈ fixed, p = .d) :
    placeOperands v w fixed s =
      (if v = w then do
        loadHL v
        vacatePair .d
        copyPair .h .d
        return .d
      else do
        loadPair .d w
        loadHL v
        return .d : Selecting Pair) s := by
  have hinPair := isInPair_of_empty hregs
  have hsecond : s.secondPair = .d := by
    rw [State.secondPair, isFree_of_empty (p := .d) rfl hregs]
    rfl
  rw [placeOperands, get_run]
  cases fixed with
  | none =>
    simp only [hinPair, hsecond, List.find?_cons, List.find?_nil, Bool.false_eq_true, if_false]
  | some p =>
    obtain rfl := hfixed p rfl
    simp only [hinPair, Bool.false_eq_true, if_false]

variable {o' : Operand} {y : Word}

/-- The operands of a word operation are put into HL and DE, starting with an empty record. Nothing
has to be saved on the way, since operands can be loaded again. -/
theorem yields_placeOperands (h : Ready data memory s m)
    (hx : o.value? s.symbols { memory } = some x) (hy : o'.value? s.symbols { memory } = some y)
    {fixed : Option Pair} (hfixed : ∀ p ∈ fixed, p = .d) :
    Yields data quiet 6 (placeOperands (.of o) (.of o') fixed) s {} m fun p regs rs =>
      p = .d ∧ regs.Light ∧ rs.h ++ rs.l = x ∧ rs.d ++ rs.e = y := by
  refine .of_eq ?_ fun code => placeOperands_of_empty rfl hfixed
  split
  next heq =>
    obtain rfl := Value.of.inj heq
    obtain rfl := Option.some.inj (hx.symm.trans hy)
    have hload : Yields data quiet 3 (loadHL (.of o)) s {} m _ :=
      yields_loadHL light_empty h hx rfl fun _ => atHand_empty s m o x
    refine hload.bind (k := 3) ?_
    rintro _ regs m' - ⟨hlight, z, hrs⟩
    refine .record_bind (fun _ => vacatePair_of_light rfl (hlight.at (by decide))) ?_
    refine .le (yields_copyHL.bind (k := 0) ?_) (by decide)
    rintro _ regs' m'' - ⟨rfl, hrs'⟩
    refine .pure ⟨rfl, hlight.clearPair.copyPair, ?_, ?_⟩
    · rw [hrs', hrs]
      exact high_append_low _
    · rw [hrs', hrs]
      exact high_append_low _
  -- Once the second operand is in DE, the first is not taken from there, as it is another value.
  next hne =>
    refine (yields_loadPair h hy).bind (k := 3) ?_
    rintro _ regs m' hchanges ⟨hDE, hde⟩
    obtain ⟨hwide, hbyte⟩ := hDE.absent fun heq => hne heq.symm
    have hload : Yields data quiet 3 (loadHL (.of o)) s regs m' _ :=
      yields_loadHL (hDE.light (reloadable_of_value? hy)) (h.of_changes hchanges) hx hwide
        fun hvar => .inl ⟨hbyte (isConst_of hvar), isAtM_of_get_h (by rw [hDE.get_h]; nofun)⟩
    refine hload.bind (k := 0) ?_
    rintro _ regs m'' - ⟨hlight, z, hrs⟩
    refine .pure ⟨rfl, hlight, ?_, ?_⟩
    · rw [hrs]
      exact high_append_low _
    · rw [hrs]
      exact hde

/-- The record with a count in `c`; a variable came through the accumulator and is still there. -/
def InC (o : Operand) : RegisterFile :=
  { slots := ⟨if o.isConst then .empty else .scalar (.of o), .empty, .scalar (.of o), .empty,
    .empty, .empty, .empty⟩ }

/-- A count is put into `c`: a literal at once, and a variable through the accumulator, which keeps
it. -/
theorem yields_loadCount (h : Ready data memory s m) (hx : o.value? s.symbols { memory } = some x) :
    Yields data quiet 2 (loadReg .c (.of o)) s {} m fun _ regs rs =>
      regs = InC o ∧ rs.c = x.setWidth 8 ∧ (o.isConst = false → rs.a = x.setWidth 8) := by
  rw [loadReg]
  refine .get_bind fun code => ?_
  cases o with
  | temp => cases hx
  | const c =>
    obtain rfl : BitVec.ofInt 16 c = x := Option.some.inj hx
    refine .record_bind (fun _ => vacateReg_of_empty rfl) ?_
    refine .le (.emit_bind (n := 0) rfl (.of_local rfl rfl rfl) ?_) (by decide)
    intro m' hrs _
    refine .record ⟨rfl, ?_, nofun⟩
    rw [hrs, setWidth_ofInt]
    rfl
  | var name =>
    -- No register has the variable, so the byte to be moved comes from the accumulator.
    have hsource : Yields data quiet 1 (byteSource (.of (.var name))) s {} m fun r regs rs =>
        r = .a ∧ regs = ({} : RegisterFile).bind .a (.of (.var name)) ∧
          rs = { m.registers with a := x.setWidth 8 } := by
      refine .get_bind fun code => ?_
      have hm : ({ s with code, regs := {} } : State).isAtM (.of (.var name)) = false :=
        (absent_empty s _).isAtM
      show Yields _ _ _ (if State.isAtM _ _ = true then _ else _) _ _ _ _
      rw [hm]
      refine (yields_loadByte (light_empty.at (by decide)) h hx (atHand_empty s m _ x)
        (Bool.or_true _)).bind (k := 0) ?_
      rintro _ regs m' - ⟨rfl, hrs⟩
      exact .pure ⟨rfl, rfl, hrs⟩
    refine hsource.bind (k := 1) ?_
    rintro r regs m' - ⟨rfl, rfl, hrs⟩
    refine .record_bind (fun _ => vacateReg_of_empty rfl) ?_
    refine .emit_bind (n := 0) rfl (.of_local rfl rfl rfl) ?_
    intro m'' hrs' _
    refine .record ⟨rfl, ?_, fun _ => ?_⟩
    · rw [hrs']
      simp [Machine.set, Machine.get, hrs, Registers.set, Registers.get]
    · rw [hrs']
      simp [Machine.set, hrs, Registers.set]

end Accumulator.Select
