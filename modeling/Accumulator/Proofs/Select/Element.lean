import Accumulator.Proofs.Select.Statement

/-!
# Elements and pointers

An array element or what a pointer points at is first an address in HL. `Aimed` says what the
registers hold then: besides HL, DE may have the start of the array and the accumulator the variable
that was the index. From there a byte is read when it is assigned, a word at once, and a value is
stored through HL or DE.
-/

namespace Accumulator.Select

open Machine RegisterFile

variable {data : Word → Prop} {quiet : Bool} {s : State} {regs : RegisterFile} {m m' : Machine}
  {memory : Memory} {place : Place} {v w x : Word} {n k : Nat} {t : Triple} {o : Operand}
  {base name : String} {u : Value}

/-! ## Addresses in HL -/

/-- The record with a word in HL, and maybe a variable in the accumulator and the start of an array
in DE. -/
def aiming (held start : Option String) (u : Value) : RegisterFile where
  slots := {
    a := held.elim .empty fun name => .scalar (.var name)
    b := .empty
    c := .empty
    d := start.elim .empty fun name => .half (.addr (.var name)) .high
    e := start.elim .empty fun name => .half (.addr (.var name)) .low
    h := .half u .high
    l := .half u .low }

/-- HL points at an address, for a value that may be an element of an array. -/
def Aimed (symbols : SymbolTable) (memory : Memory) (base : String) (u : Value) (address : Word)
    (regs : RegisterFile) (rs : Registers Byte) : Prop :=
  ∃ held start, regs = aiming held start u ∧ rs.h ++ rs.l = address ∧
    (∀ name, start = some name → name = base) ∧
    ∀ name place, held = some name → symbols.place? name = some place →
      rs.a = (place.read memory).setWidth 8

/-- The start of an array is added to HL. It is loaded into DE, which is free, and is recorded there
afterwards. -/
theorem yields_addBase (h : Ready data memory s m) (hplace : s.symbols.place? base = some place)
    (hd : regs.get .d = .empty) (he : regs.get .e = .empty)
    (hpair : regs.findPair? (.addr (.var base)) = none) :
    Yields data quiet 2 (addBase base) s regs m fun _ regs' rs =>
      regs' = (regs.clearPair .d).bindPair .d (.addr (.var base)) ∧ rs.a = m.registers.a ∧
      rs.h ++ rs.l = m.hl + place.address := by
  have hvalue : ∀ r ∈ [Reg.d, .e], (regs.get r).value? = none := by
    simp [hd, he, Content.value?]
  have hlight : regs.LightAt [.d, .e] := fun r hr v hv => by simp [hvalue r hr] at hv
  have hfree (code : List Instr) : ({ s with code, regs } : State).isFree .d = true :=
    isFree_of_light (p := .d) rfl hlight fun r hr v hv => by simp [hvalue r hr] at hv
  rw [addBase]
  refine .get_bind fun code => ?_
  simp only [hpair, List.find?_cons, hfree]
  refine .record_bind (fun _ => vacatePair_of_light rfl hlight) ?_
  refine .emit_bind (n := 1) rfl (computes_lxi rfl (h.provides.imm_ofSymbol hplace)) ?_
  intro m' hrs _
  refine .update_bind (.emit rfl (computes_addPair (p := .d) nofun m') ⟨rfl, ?_, ?_⟩)
  · show m'.registers.a = m.registers.a
    rw [hrs]
    rfl
  · rw [withHL_hl, Machine.hl, Machine.pair, hrs]
    exact congrArg (m.hl + ·) (high_append_low place.address)

/-- The address of an element of some width at a position. -/
def elementAddress (place : Place) (x : Word) : Word :=
  place.address + x * BitVec.ofNat 16 place.width.size

/-- The position in HL becomes an address. It is doubled for an array of words, by adding HL to
itself, and the start of the array is added from DE. -/
theorem yields_scale (h : Ready data memory s m) (hplace : s.symbols.place? base = some place)
    (hlight : regs.LightAt [.h, .l]) (hd : regs.get .d = .empty) (he : regs.get .e = .empty)
    (hpair : regs.findPair? (.addr (.var base)) = none) :
    Yields data quiet 3 (do
      preserveHL
      match place.width with
      | .word => emit (.dad .h)
      | .byte => pure ()
      addBase base) s regs m fun _ regs' rs =>
        regs' = (regs.clearPair .d).bindPair .d (.addr (.var base)) ∧ rs.a = m.registers.a ∧
        rs.h ++ rs.l = elementAddress place m.hl := by
  -- What is left once HL has been scaled is the same for both widths.
  have hadd {m' : Machine} (h' : Ready data memory s m') (ha : m'.registers.a = m.registers.a)
      (hhl : m'.hl = m.hl * BitVec.ofNat 16 place.width.size) :
      Yields data quiet 2 (addBase base) s regs m' fun _ regs' rs =>
        regs' = (regs.clearPair .d).bindPair .d (.addr (.var base)) ∧ rs.a = m.registers.a ∧
        rs.h ++ rs.l = elementAddress place m.hl := by
    refine (yields_addBase h' hplace hd he hpair).mono (Nat.le_refl 2) ?_
    rintro _ _ _ ⟨hregs, ha', hsum⟩
    refine ⟨hregs, ha'.trans ha, ?_⟩
    rw [hsum, hhl, elementAddress, BitVec.add_comm]
  refine .record_bind (fun _ => preserveHL_of_light hlight) ?_
  cases hwidth : place.width with
  | byte =>
    rw [hwidth] at hadd
    exact .le (hadd h rfl (BitVec.mul_one m.hl).symm) (Nat.le_succ 2)
  | word =>
    rw [hwidth] at hadd
    refine .emit_bind (n := 2) rfl (computes_addPair (p := .h) nofun m) fun m' hrs hchanges => ?_
    refine hadd (h.of_changes hchanges) (by rw [hrs]; rfl) ?_
    rw [Machine.hl, hrs, withHL_hl]
    exact BitVec.mul_two.symm

/-- The position of an element is loaded from a variable, scaled, and added to the start of the
array. Starting from an empty record, HL has the address of the element then, and the accumulator
may still hold a byte position. -/
theorem yields_addressElement (h : Ready data memory s m)
    (hplace : s.symbols.place? base = some place)
    (hx : (Operand.var name).value? s.symbols { memory } = some x) (u : Value) :
    Yields data quiet 6 (addressElement base place.width (.var name)) s {} m fun _ regs =>
      Aimed s.symbols memory base u (elementAddress place x) (regs.bindPair .h u) := by
  have hhl {m' : Machine} {y : Byte} (hrs : m'.registers = { withHL m.registers x with a := y }) :
      m'.hl = x := by
    rw [Machine.hl, hrs]
    exact withHL_hl m.registers x
  cases hbyte : s.isByte (.of (.var name)) with
  | true =>
    -- A byte passes through the accumulator, which keeps it.
    have hlight : (({} : RegisterFile).bind .a (.var name)).Light := light_empty.bind rfl
    refine (yields_loadHL_byte (light_empty.at (by decide)) (hlight.at (by decide)) h hx rfl
      (atHand_empty s m _ x) rfl hbyte).bind (k := 3) ?_
    rintro _ _ m' hchanges ⟨rfl, hrs⟩
    refine (yields_scale (h.of_changes hchanges) hplace ?_ ?_ ?_ ?_).mono (Nat.le_refl 3) ?_
    · exact (hlight.clearPair.bindExtended rfl).at (by decide)
    · rfl
    · rfl
    · rfl
    · rintro _ _ rs ⟨rfl, ha, haddress⟩
      refine ⟨some name, some base, rfl, by rw [haddress, hhl hrs],
        fun _ h => (Option.some.inj h).symm,
        ?_⟩
      rintro _ q ⟨⟩ hq
      obtain ⟨q', hq', rfl⟩ := Option.map_eq_some_iff.mp hx
      obtain rfl := Option.some.inj (hq.symm.trans hq')
      rw [ha, hrs]
  | false =>
    -- A word is loaded into HL directly, and the accumulator stays empty.
    refine .le ((yields_loadHL_wide (light_empty.at (by decide)) h hx rfl (.inr hbyte)).bind
      (k := 3) ?_) (by decide)
    rintro _ _ m' hchanges ⟨rfl, hrs⟩
    refine (yields_scale (h.of_changes hchanges) hplace ?_ ?_ ?_ ?_).mono (Nat.le_refl 3) ?_
    · exact (light_empty.clearPair.bindPair rfl).at (by decide)
    · rfl
    · rfl
    · rfl
    · rintro _ _ rs ⟨rfl, -, haddress⟩
      exact ⟨none, some base, rfl, by rw [haddress, hhl hrs], fun _ h => (Option.some.inj h).symm,
        by rintro _ _ ⟨⟩⟩

/-- The address of an element at a constant position. -/
theorem yields_addressConstElement (h : Ready data memory s m)
    (hplace : s.symbols.place? base = some place) (k : Int) (u : Value) :
    Yields data quiet 6 (addressConstElement base (k * place.width.size)) s {} m fun _ regs =>
      Aimed s.symbols memory base u (elementAddress place (.ofInt 16 k)) (regs.bindPair .h u) := by
  have haddress : place.address + BitVec.ofInt 16 (k * place.width.size) =
      elementAddress place (.ofInt 16 k) := by
    rw [elementAddress, BitVec.ofInt_mul, BitVec.ofInt_natCast]
  rw [addressConstElement]
  refine .get_bind fun code => ?_
  refine .record_bind (fun _ => vacateHL_of_light (light_empty.at (by decide))) ?_
  refine .le (.emit rfl (computes_lxi rfl (h.provides.imm hplace _)) ?_) (by decide)
  refine ⟨none, none, rfl, ?_, by rintro _ ⟨⟩, by rintro _ _ ⟨⟩⟩
  rw [haddress]
  exact high_append_low _

/-! ## Elements -/

/-- A declared array passes the check, and the record stays as it is. -/
theorem arraySymbol_run {symbol : Symbol} {code : List Instr}
    (hsymbol : s.symbols.get? base = some symbol) (harray : symbol.isArray = true) :
    arraySymbol t base { s with code, regs } = .ok symbol { s with code, regs } := by
  rw [arraySymbol, get_run]
  simp only [hsymbol, harray]
  rfl

/-- An element of an array. -/
structure IsElement (symbols : SymbolTable) (memory : Memory) (t : Triple) (base : String)
    (place : Place) (x : Word) : Prop where
  op : t.op = .index
  lhs : t.lhs = .var base
  array : ∃ symbol, symbols.get? base = some symbol ∧ symbol.isArray = true
  located : symbols.place? base = some place
  index : ∃ o, t.rhs = some o ∧ o.value? symbols { memory } = some x ∧
    ∀ k, o = .const k → InInt32 (k * place.width.size)

/-- The address of an element is selected first, whether its position is a literal or in a variable.
What follows depends on the element: a word that is read is loaded, and otherwise the address is all
that is wanted. -/
theorem yields_selectIndex {R : Unit → RegisterFile → Registers Byte → Prop}
    (h : Ready data memory s m) (ht : IsElement s.symbols memory t base place x)
    (hrest : ∀ regs m', Changes data m'.registers m m' →
      Aimed s.symbols memory base (.addr (.temp t.id)) (elementAddress place x) regs m'.registers →
        Yields data quiet k (if t.width = .word ∧ !t.addressOnly then loadElement t.id else pure ())
          s regs m' R) :
    Yields data quiet (6 + k) (selectTriple t) s {} m R := by
  obtain ⟨symbol, hsymbol, harray⟩ := ht.array
  obtain ⟨o, hrhs, hx, hbound⟩ := ht.index
  have hop := ht.op
  have hlhs := ht.lhs
  have hwidth : place.width = symbol.width := by
    obtain ⟨symbol', hsymbol', -, hwidth⟩ := SymbolTable.place?_eq_some ht.located
    rw [hwidth, Option.some.inj (hsymbol.symm.trans hsymbol')]
  obtain ⟨id, lhs, op, rhs, width, addressOnly, noSave, throughPointer⟩ := t
  cases hop
  cases hlhs
  cases hrhs
  refine .record_bind (fun _ => arraySymbol_run hsymbol harray) ?_
  rw [← hwidth]
  cases o with
  | temp => cases hx
  -- At a literal position the scaling is done at compile time, within the bounds of a literal.
  | const c =>
    obtain rfl : BitVec.ofInt 16 c = x := Option.some.inj hx
    have hmul : checkedMul c place.width.size = .ok (c * place.width.size) := if_pos (hbound c rfl)
    simp only [hmul]
    refine (yields_addressConstElement h ht.located c (.addr (.temp id))).bind ?_
    intro _ regs m' hchanges haimed
    exact .update_bind (hrest _ m' hchanges haimed)
  | var name =>
    refine (yields_addressElement h ht.located hx (.addr (.temp id))).bind ?_
    intro _ regs m' hchanges haimed
    exact .update_bind (hrest _ m' hchanges haimed)

/-- The address of an element, where no more is wanted. -/
theorem yields_selectIndex_address (h : Ready data memory s m)
    (ht : IsElement s.symbols memory t base place x)
    (haddress : ¬(t.width = .word ∧ (!t.addressOnly) = true)) :
    Yields data quiet 6 (selectTriple t) s {} m fun _ =>
      Aimed s.symbols memory base (.addr (.temp t.id)) (elementAddress place x) := by
  refine yields_selectIndex (k := 0) h ht fun regs m' _ haimed => ?_
  rw [if_neg haddress]
  exact .pure haimed

/-! ## Reading through HL -/

/-- The byte that HL points at. -/
theorem computes_movM (h : Ready data memory s m) (hdata : ∀ a, data a) {r : Reg} (hr : r ≠ .m) :
    Computes data [.mov r .m] m (m.registers.set r (memory.read m.hl)) := by
  rw [← h.provides.bytes _ (hdata m.hl)]
  exact computes_loadByte hr (hdata _)

/-- The word that HL points at. -/
theorem computes_loadElement (h : Ready data memory s m) (hdata : ∀ a, data a) :
    Computes data [.mov .a .m, .inx .h, .mov .h .m, .mov .l .a] m
      { withHL m.registers (memory.readWord m.hl) with a := memory.read m.hl } := by
  rw [Memory.readWord, ← h.provides.bytes _ (hdata m.hl), ← h.provides.bytes _ (hdata (m.hl + 1))]
  exact computes_loadWord (hdata _) (hdata _)

variable {held start : Option String}

/-- Once HL has an address, every other register holds at most a variable or the start of the array,
which need not be saved. -/
theorem light_aiming : (aiming held start u).LightAt [.a, .b, .c, .d, .e] := by
  cases held <;> cases start <;> simp [LightAt, aiming, RegisterFile.get, Registers.get,
    Content.value?, reloadable, Value.var]

theorem light_aiming_a : (aiming held start u).LightAt [.a] :=
  fun r hr => light_aiming r (by revert r; decide)

/-- A word element that is read ends up in HL. Its address is computed there first, and is not
needed any more. -/
theorem yields_selectIndex_word (h : Ready data memory s m) (hdata : ∀ a, data a)
    (ht : IsElement s.symbols memory t base place x) (hword : t.width = .word)
    (hread : t.addressOnly = false) (hdead : s.isLiveAfter (.addr (.temp t.id)) = false) :
    Yields data quiet 10 (selectTriple t) s {} m fun _ =>
      HoldsWord t.id (memory.readWord (elementAddress place x)) := by
  refine yields_selectIndex (k := 4) h ht ?_
  rintro _ m' hchanges ⟨held, start, rfl, haddress, -⟩
  rw [if_pos ⟨hword, by rw [hread]; rfl⟩, loadElement]
  refine .get_bind fun code => ?_
  have hdead' :
      ({ s with code, regs := aiming held start (.addr (.temp t.id)) } : State).isLiveAfter
      (.addr (.temp t.id)) = false := hdead
  simp only [hdead', Bool.false_eq_true, if_false]
  refine .record_bind (fun _ => saveAccumulator_of_light light_aiming_a) ?_
  refine .emitAll_bind (n := 0) rfl (computes_loadElement (h.of_changes hchanges) hdata) ?_
  intro m'' hrs _
  have hregs : ((aiming held start (.addr (.temp t.id))).clear .a).bindPair .h (.temp t.id) =
      aiming none start (.temp t.id) := by
    cases held <;> cases start <;> rfl
  refine .record ?_
  rw [hregs, hrs, ← haddress]
  exact ⟨rfl, rfl, light_aiming, withHL_hl m'.registers _⟩

/-! ## Bytes behind HL -/

theorem findPair?_aiming : (aiming held start u).findPair? u = some .h := by
  simp [RegisterFile.findPair?, searchOrder, pairMatch?, Pair.halves?, aiming, RegisterFile.get,
    Registers.get]

/-- The byte that HL points at is loaded into the accumulator, by one instruction, and is recorded
there. -/
theorem yields_loadAimed {id : Nat} (h : Ready data memory s m) (hdata : ∀ a, data a)
    (hmemory : isMemoryOperand s.triples (.temp id) = true) (hbyte : s.isByte (.temp id) = true) :
    Yields data quiet 1 (loadAccumulator (.temp id)) s (aiming held start (.addr (.temp id))) m
      fun _ regs rs => regs = (aiming held start (.addr (.temp id))).bind .a (.temp id) ∧
        rs = { m.registers with a := memory.read m.hl } := by
  have hfind : (aiming held start (.addr (.temp id))).findByte? (.temp id) = none := by
    cases held <;> cases start <;> rfl
  have hm (code : List Instr) : ({ s with code, regs := aiming held start (.addr (.temp id)) } :
      State).isAtM (.temp id) = true := by
    simp [State.isAtM, State.isMemoryOperand, Value.temp, hmemory, findPair?_aiming]
  -- The byte is nowhere but behind HL, so it is loaded with a single move.
  have hfill : Yields data quiet 1 (fillAccumulator (.temp id)) s
      (aiming held start (.addr (.temp id))) m fun _ regs rs =>
        regs = aiming held start (.addr (.temp id)) ∧
        rs = { m.registers with a := memory.read m.hl } := by
    rw [fillAccumulator]
    refine .get_bind fun code => ?_
    simp only [hfind, hm]
    exact .emit rfl (computes_movM h hdata (r := .a) (by decide)) ⟨rfl, rfl⟩
  rw [loadAccumulator]
  refine .get_bind fun code => ?_
  simp only [holds_of_findByte? hfind]
  refine .record_bind (fun _ => saveAccumulator_of_light light_aiming_a) (hfill.bind (k := 0) ?_)
  rintro _ _ m' - ⟨rfl, hrs⟩
  refine .get_bind fun code => ?_
  show Yields _ _ _ (if (s.isByte (.temp id) || _) = true then _ else _) _ _ _ _
  rw [hbyte]
  exact .of_record (fun _ => rfl) ⟨rfl, hrs⟩

/-- DE is free, unless the current triple needs the start of the array. -/
theorem isFree_of_start {code : List Instr} (hd : regs.get .d = (aiming none start u).get .d)
    (he : regs.get .e = (aiming none start u).get .e)
    (hpinned : ∀ name, start = some name → .addr (.var name) ∉ s.pinned) :
    ({ s with code, regs } : State).isFree .d = true := by
  have hvalue : ∀ r ∈ [Reg.d, .e], ∀ v, (regs.get r).value? = some v →
      ∃ name, start = some name ∧ v = .addr (.var name) := by
    simp only [List.forall_mem_cons, List.not_mem_nil, false_imp_iff, implies_true,
      and_true, hd, he]
    cases start <;> simp [aiming, RegisterFile.get, Registers.get, Content.value?, eq_comm]
  refine isFree_of_light (p := .d) rfl (fun r hr v hv => ?_) fun r hr v hv => ?_
  · obtain ⟨name, -, rfl⟩ := hvalue r hr v hv
    rfl
  · obtain ⟨name, hname, rfl⟩ := hvalue r hr v hv
    exact hpinned name hname

/-- DE and HL are exchanged, in the record and in the machine. -/
theorem yields_exchange : Yields data quiet 1 exchange s regs m fun _ regs' rs =>
    regs' = regs.swapPairs .d .h ∧ rs = m.exchanged.registers := by
  have hstep : m.execute .xchg = .ok m.exchanged := step_xchg m
  have hrun : [Instr.xchg].foldlM Machine.execute m = .ok m.exchanged := by
    simp only [List.foldlM, hstep]
    rfl
  exact .emit_bind (n := 0) rfl (.of_local rfl hrun rfl) fun m' hrs _ => .record ⟨rfl, hrs⟩

/-- HL is left for something else, and the address in it goes to DE if it is needed. -/
theorem yields_vacateAimed {id : Nat}
    (hpinned : ∀ name, start = some name → .addr (.var name) ∉ s.pinned) (u : Value) :
    Yields data quiet 1 (vacateHL none) s ((aiming held start (.addr (.temp id))).bind .a u) m
      fun _ _ rs => rs.a = m.registers.a := by
  have hvalue : ((aiming held start (.addr (.temp id))).bind .a u).pairValue? .h =
      some (.addr (.temp id)) := by
    cases held <;> simp [pairValue?, Pair.halves?, aiming, RegisterFile.bind, RegisterFile.clear,
      RegisterFile.put, RegisterFile.get, Registers.get, Registers.set]
  have hfree (code : List Instr) :
      ({ s with code, regs := (aiming held start (.addr (.temp id))).bind .a u } :
        State).isFree .d =
        true := by
    refine isFree_of_start (u := .addr (.temp id)) ?_ ?_ hpinned <;> cases held <;> rfl
  rw [vacateHL]
  refine .get_bind fun code => ?_
  simp only [hvalue, hfree, reduceCtorEq, if_false]
  split
  · refine yields_exchange.bind (k := 0) ?_
    rintro _ _ m' - ⟨-, hrs⟩
    refine .update_bind (.pure ?_)
    rw [hrs]
    rfl
  · exact .update_bind (.pure rfl)

/-- A byte that HL points at can be assigned to a variable of either width, through the accumulator
or through HL, whichever the assignment asks for. -/
theorem delivers_of_aimed {id : Nat} {address : Word} (h : Ready data memory s m)
    (hdata : ∀ a, data a) (hmemory : isMemoryOperand s.triples (.temp id) = true)
    (hbyte : s.isByte (.temp id) = true) (hpinned : .addr (.var base) ∉ s.pinned)
    (haimed : Aimed s.symbols memory base (.addr (.temp id)) address regs m.registers) :
    Delivers data quiet s regs m (.temp id) ((memory.read address).setWidth 16) := by
  obtain ⟨held, start, rfl, haddress, hstart, -⟩ := haimed
  refine ⟨?_, ?_, ?_⟩
  · refine (yields_loadAimed h hdata hmemory hbyte).mono (by decide) ?_
    rintro _ _ _ ⟨-, rfl⟩
    rw [Machine.hl, haddress]
    simp
  · -- No pair holds the byte, so it passes through the accumulator on its way to HL.
    have hdirect (code : List Instr) :
        loadHLDirect (.temp id) { s with code, regs := aiming held start (.addr (.temp id)) } =
          .ok false { s with code, regs := aiming held start (.addr (.temp id)) } :=
      bind_run (loadHLHeld_of_absent (by cases held <;> cases start <;> rfl) h.spill)
    have hlocate : Yields data quiet 1 (locateByte (.temp id) [.h, .l]) s
        (aiming held start (.addr (.temp id))) m fun r regs rs => r = .a ∧
          regs = (aiming held start (.addr (.temp id))).bind .a (.temp id) ∧
          rs.a = memory.read address := by
      have hfind : (aiming held start (.addr (.temp id))).findByte? (.temp id) = none := by
        cases held <;> cases start <;> rfl
      rw [locateByte]
      refine .get_bind fun code => ?_
      simp only [hfind]
      refine (yields_loadAimed h hdata hmemory hbyte).bind (k := 0) ?_
      rintro _ _ m' - ⟨rfl, hrs⟩
      refine .pure ⟨rfl, rfl, ?_⟩
      rw [hrs, ← haddress]
      rfl
    refine .record_bind hdirect (.get_bind fun code => ?_)
    show Yields _ _ _ (if s.isByte (.temp id) = true then _ else _) _ _ _ _
    rw [if_pos hbyte]
    refine hlocate.bind (k := 3) ?_
    rintro _ _ m₁ - ⟨rfl, rfl, ha₁⟩
    refine (yields_vacateAimed (fun name hname => hstart name hname ▸ hpinned) (.temp id)).bind
      (k := 2) fun _ regs₂ m₂ _ ha₂ => ?_
    refine .emitAll_bind (n := 0) rfl (.of_local rfl rfl rfl) fun m₃ hrs₃ _ => ?_
    refine .record ?_
    rw [hrs₃]
    show (0 : Byte) ++ m₂.registers.a = (memory.read address).setWidth 16
    rw [ha₂, ha₁, zero_append_byte]
  · -- HL has an address, which is not the value of any variable.
    intro name q hq hpair
    cases get_h_of_findPair? hpair

/-! ## Storing a byte through HL -/

/-- A register is stored through HL. -/
theorem assigns_storeHeld (hdata : ∀ a, data a) (ha : m.registers.a = w.setWidth 8) :
    Assigns data quiet 1 (storeAtHL (.var name)) s (aiming (some name) start u) m
      { address := m.hl, width := .byte } w := by
  have hfind : (aiming (some name) start u).findByte? (.var name) = some .a :=
    findByte?_of_get_a rfl
  have hfilter : ((some Reg.a).filter fun r => r ≠ .h && r ≠ .l) = some .a := rfl
  refine .get_bind fun code => ?_
  simp only [hfind, hfilter]
  refine .emitAll (straight_of_tame rfl) (.single rfl (fun _ a _ => hdata a) rfl)
    ⟨rfl, fun a _ => ?_⟩
  show (m.memory.write m.hl m.registers.a).read a = _
  rw [ha]
  rfl

/-- A literal is stored through HL. -/
theorem assigns_storeConst (hdata : ∀ a, data a) (c : Int) :
    Assigns data quiet 1 (storeAtHL (.const c)) s (aiming held start u) m
      { address := m.hl, width := .byte } (.ofInt 16 c) := by
  have hfind : (aiming held start u).findByte? (.const c) = none := by
    cases held <;> cases start <;> rfl
  refine .get_bind fun code => ?_
  simp only [hfind]
  refine .emitAll (straight_of_tame rfl) (.single rfl (fun _ a _ => hdata a) rfl)
    ⟨rfl, fun a _ => ?_⟩
  show (m.memory.write m.hl (lowByte c)).read a = _
  rw [← setWidth_ofInt]
  rfl

/-- An address that is in HL is located there, and nothing is emitted. -/
theorem locateAddress_of_aiming {code : List Instr} :
    locateAddress u { s with code, regs := aiming held start u } =
      .ok .h { s with code, regs := aiming held start u } := by
  rw [locateAddress, get_run]
  simp only [findPair?_aiming]
  rfl

/-- A variable that the accumulator does not hold is nowhere. -/
theorem absent_aiming {id : Nat} (hname : held ≠ some name) :
    Absent s (aiming held start (.addr (.temp id))) (.var name) := by
  refine ⟨?_, ?_⟩
  · cases held with
    | none => cases start <;> rfl
    | some other =>
      have hne : other ≠ name := fun h => hname (congrArg some h)
      cases start <;>
        simp [RegisterFile.findByte?, RegisterFile.holds, Reg.all, aiming, RegisterFile.get,
          Registers.get, Value.var, hne]
  · have hpair :
        (aiming held start (.addr (.temp id))).findPair? (.addr (.var name)) ≠ some .h := by
      intro hpair
      cases get_h_of_findPair? hpair
    simp [State.isAtM, hpair]

/-- A byte is stored where HL points. A literal is stored directly; a variable comes from the
accumulator, and it is loaded there before unless it already was the position of the element. -/
theorem assigns_storeByte {id : Nat} {address : Word} (h : Ready data memory s m)
    (hdata : ∀ a, data a)
    (haimed : Aimed s.symbols memory base (.addr (.temp id)) address regs m.registers)
    (hw : o.value? s.symbols { memory } = some w) :
    Assigns data quiet 2 (storeByte (.addr (.temp id)) (.of o)) s regs m
      { address, width := .byte } w := by
  obtain ⟨held, start, rfl, rfl, -, hheld⟩ := haimed
  rw [storeByte]
  refine .get_bind fun code => ?_
  cases o with
  | temp => cases hw
  | const c =>
    obtain rfl := Option.some.inj hw
    have hneeds : ({ s with code, regs := aiming held start (.addr (.temp id)) } :
        State).needsAccumulator (.of (.const c)) = false := by
      simp [State.needsAccumulator, Value.isConst]
    rw [hneeds]
    refine .record_bind (fun _ => locateAddress_of_aiming) ?_
    exact .le (assigns_storeConst hdata c) (Nat.le_succ 1)
  | var name =>
    obtain ⟨q, hq, rfl⟩ := Option.map_eq_some_iff.mp hw
    -- The position of the element may be the byte to be stored, as in `a[i] := i`.
    by_cases hname : held = some name
    · subst hname
      have hneeds : ({ s with code, regs := aiming (some name) start (.addr (.temp id)) } :
          State).needsAccumulator (.of (.var name)) = false := by
        have hfind : (aiming (some name) start (.addr (.temp id))).findByte? (.of (.var name)) =
            some .a := findByte?_of_get_a rfl
        simp [State.needsAccumulator, hfind]
      rw [hneeds]
      refine .record_bind (fun _ => locateAddress_of_aiming) ?_
      exact .le (assigns_storeHeld hdata (hheld name q rfl hq)) (Nat.le_succ 1)
    · have habsent : Absent s (aiming held start (.addr (.temp id))) (.var name) :=
        absent_aiming hname
      have hneeds : ({ s with code, regs := aiming held start (.addr (.temp id)) } :
          State).needsAccumulator (.of (.var name)) = true := by
        have hm : ({ s with code, regs := aiming held start (.addr (.temp id)) } : State).isAtM
            (.of (.var name)) = false := habsent.isAtM
        simp [State.needsAccumulator, habsent.findByte?, hm, Value.isConst]
      rw [hneeds]
      have hbind : (aiming held start (.addr (.temp id))).bind .a (.of (.var name)) =
          aiming (some name) start (.addr (.temp id)) := by
        cases held <;> rfl
      have hload : Yields data quiet 1 (loadAccumulator (.of (.var name))) s _ m _ :=
        yields_loadByte light_aiming_a h hw (.inl habsent) (Bool.or_true _)
      rw [hbind] at hload
      refine .bind (n := 1) (k := 1) hload ?_
      rintro _ _ m' - ⟨rfl, hrs⟩
      have hhl : m'.hl = m.registers.h ++ m.registers.l := by rw [Machine.hl, hrs]
      refine .record_bind (fun _ => locateAddress_of_aiming) ?_
      rw [← hhl]
      exact assigns_storeHeld hdata (by rw [hrs])

/-! ## Storing a word -/

/-- DE is stored where HL points. -/
theorem assigns_storeDE {regs : RegisterFile} (hdata : ∀ a, data a)
    (hw : m.registers.d ++ m.registers.e = w) :
    Assigns data quiet 3 (emitAll [.mov .m .e, .inx .h, .mov .m .d]) s regs m
      { address := m.hl, width := .word } w := by
  have hwithin (m : Machine) (i : Instr) : Within data m i := fun _ a _ => hdata a
  refine .emitAll (straight_of_tame rfl) (.cons rfl (hwithin _ _) rfl
    (.cons rfl (hwithin _ _) rfl (.single rfl (hwithin _ _) rfl))) ⟨rfl, fun a _ => ?_⟩
  have hnext : ((m.set .m m.registers.e).setPair .h (m.hl + 1)).hl = m.hl + 1 := high_append_low _
  show ((m.memory.write m.hl m.registers.e).write
    ((m.set .m m.registers.e).setPair .h (m.hl + 1)).hl m.registers.d).read a =
      (m.memory.writeWord m.hl w).read a
  rw [hnext, ← hw, Memory.writeWord, high_of_append, low_of_append]

/-- HL is stored where DE points, byte by byte. -/
theorem assigns_storeHL {regs : RegisterFile} (hdata : ∀ a, data a)
    (hw : m.registers.h ++ m.registers.l = w) :
    Assigns data quiet 5 (emitAll [.mov .a .l, .stax .d, .inx .d, .mov .a .h, .stax .d]) s regs m
      { address := m.registers.d ++ m.registers.e, width := .word } w := by
  have hwithin (m : Machine) (i : Instr) : Within data m i := fun _ a _ => hdata a
  refine .emitAll (straight_of_tame rfl) (.cons rfl (hwithin _ _) rfl
    (.cons rfl (hwithin _ _) rfl (.cons rfl (hwithin _ _) rfl (.cons rfl (hwithin _ _) rfl
      (.single rfl (hwithin _ _) rfl))))) ⟨rfl, fun a _ => ?_⟩
  have hnext : (m.setPair .d (m.registers.d ++ m.registers.e + 1)).pair .d =
      m.registers.d ++ m.registers.e + 1 := high_append_low _
  show ((m.memory.write (m.registers.d ++ m.registers.e) m.registers.l).write
    ((m.setPair .d (m.registers.d ++ m.registers.e + 1)).pair .d) m.registers.h).read a =
      (m.memory.writeWord (m.registers.d ++ m.registers.e) w).read a
  rw [hnext, ← hw, Memory.writeWord, high_of_append, low_of_append]

/-- The record with a word in DE that was in HL. -/
def aimingDE (held start : Option String) (u : Value) : RegisterFile where
  slots := {
    a := held.elim .empty fun name => .scalar (.var name)
    b := .empty
    c := .empty
    d := .half u .high
    e := .half u .low
    h := start.elim .empty fun name => .half (.addr (.var name)) .high
    l := start.elim .empty fun name => .half (.addr (.var name)) .low }

/-- Once DE has the address, the accumulator and HL can be loaded without saving them. -/
theorem light_aimingDE : (aimingDE held start u).LightAt [.a, .h, .l] := by
  cases held <;> cases start <;> simp [LightAt, aimingDE, RegisterFile.get, Registers.get,
    Content.value?, reloadable, Value.var]

theorem light_aimingDE_h : (aimingDE held start u).LightAt [.h, .l] :=
  fun r hr => light_aimingDE r (List.mem_cons_of_mem _ hr)

/-- A variable is in the accumulator, or it has to come from memory. -/
theorem atHand_aimingDE {id : Nat} (hstart : ∀ base, start = some base → base ≠ name)
    (hheld : held = some name → m.registers.a = w.setWidth 8) :
    AtHand s (aimingDE held start (.addr (.temp id))) m (.var name) w := by
  by_cases hname : held = some name
  · subst hname
    exact .inr ⟨decide_eq_true rfl, hheld rfl⟩
  · refine .inl ⟨?_, ?_⟩
    · cases held with
      | none => cases start <;> rfl
      | some other =>
        have hne : other ≠ name := fun h => hname (congrArg some h)
        cases start <;>
          simp [RegisterFile.findByte?, RegisterFile.holds, Reg.all, aimingDE, RegisterFile.get,
            Registers.get, Value.var, hne]
    · have hpair : (aimingDE held start (.addr (.temp id))).findPair? (.addr (.var name)) ≠
          some .h := by
        intro hpair
        have hget := get_h_of_findPair? hpair
        cases start with
        | none => cases hget
        | some base =>
          cases hget
          exact hstart name rfl rfl
      simp [State.isAtM, hpair]

/-- With an address in DE, a variable is loaded into HL, and DE stays as it is. The variable is not
the array itself, so it is not confused with the start of the array. -/
theorem yields_loadBeside {id : Nat} (h : Ready data memory s m)
    (hstart : ∀ base, start = some base → base ≠ name)
    (hheld : held = some name → m.registers.a = w.setWidth 8)
    (hw : (Operand.var name).value? s.symbols { memory } = some w) :
    Yields data quiet 3 (loadHL (.var name)) s (aimingDE held start (.addr (.temp id))) m
      fun _ regs rs => regs.LightAt [.a] ∧ rs.h ++ rs.l = w ∧ rs.d = m.registers.d ∧
        rs.e = m.registers.e := by
  have hwide : (aimingDE held start (.addr (.temp id))).findWide? (.of (.var name)) = none := by
    cases held <;> cases start <;> rfl
  have hlight {p : Option String} {regs : RegisterFile}
      (hget : regs.get .a = (aimingDE p start (.addr (.temp id))).get .a) : regs.LightAt [.a] := by
    intro r hr
    rw [List.mem_singleton.mp hr, hget]
    exact light_aimingDE .a (by decide)
  cases hbyte : s.isByte (.of (.var name)) with
  | false =>
    refine (yields_loadHL_wide light_aimingDE_h h hw hwide (.inr hbyte)).mono (by decide) ?_
    rintro _ _ _ ⟨rfl, rfl⟩
    exact ⟨hlight (p := held) (by cases start <;> rfl), withHL_hl _ _, rfl, rfl⟩
  | true =>
    -- A byte comes through the accumulator, which then holds the variable instead of what was held.
    have hbind : (aimingDE held start (.addr (.temp id))).bind .a (.of (.var name)) =
        aimingDE (some name) start (.addr (.temp id)) := by
      cases held <;> rfl
    refine (yields_loadHL_byte (hlight rfl) (hbind ▸ light_aimingDE_h) h hw hwide
      (atHand_aimingDE hstart hheld) rfl hbyte).mono (by decide) ?_
    rintro _ _ _ ⟨rfl, rfl⟩
    refine ⟨?_, withHL_hl m.registers w, rfl, rfl⟩
    rw [hbind]
    exact hlight (p := some name) (by cases start <;> rfl)

/-- A word is stored where HL points: a literal from DE, a variable from HL once the address is in
DE. -/
theorem assigns_storeWord {id : Nat} {address : Word} (h : Ready data memory s m)
    (hdata : ∀ a, data a) (hpinned : .addr (.var base) ∉ s.pinned)
    (hlast : s.triples.drop (s.pos + 1) = [])
    (haimed : Aimed s.symbols memory base (.addr (.temp id)) address regs m.registers)
    (hne : o ≠ .var base) (hw : o.value? s.symbols { memory } = some w) :
    Assigns data quiet 9 (storeWord (.addr (.temp id)) (.of o)) s regs m
      { address, width := .word } w := by
  obtain ⟨held, start, rfl, rfl, hstart, hheld⟩ := haimed
  have hkeep (code : List Instr) (regs : RegisterFile) (lost : List Reg) :
      ({ s with code, regs } : State).mustKeep (.addr (.temp id)) lost true = false := by
    simp [State.mustKeep, State.isLiveAfter, State.nextUse?, hlast]
  rw [storeWord]
  refine .record_bind (fun _ => locateAddress_of_aiming) (.get_bind fun code => ?_)
  cases o with
  | temp => cases hw
  | const c =>
    obtain rfl := Option.some.inj hw
    -- DE is free, since the start of the array is not pinned, and a literal goes there.
    have hfree : ({ s with code, regs := aiming held start (.addr (.temp id)) } : State).isFree .d =
        true :=
      isFree_of_start (u := .addr (.temp id)) rfl rfl fun name hname => hstart name hname ▸ hpinned
    have hload : Yields data quiet 1 (loadPair .d (.of (.const c))) s
        (aiming held start (.addr (.temp id))) m fun _ _ rs =>
          (rs.d ++ rs.e : Word) = .ofInt 16 c ∧ rs.h = m.registers.h ∧ rs.l = m.registers.l := by
      have hlight : (aiming held start (.addr (.temp id))).LightAt [.d, .e] :=
        fun r hr => light_aiming r (by revert r; decide)
      have hwide : (aiming held start (.addr (.temp id))).findWide? (.of (.const c)) = none := by
        cases held <;> cases start <;> rfl
      refine .record_bind (fun _ => loadPairHeld_of_absent hwide h.spill) (.get_bind fun code => ?_)
      refine .record_bind (fun _ => vacatePair_of_light rfl hlight) ?_
      refine .emit_bind (n := 0) rfl (computes_lxi_const rfl c) fun m' hrs _ => .record ?_
      rw [hrs]
      exact ⟨high_append_low _, rfl, rfl⟩
    simp only [hfree, Value.isConst, Bool.and_true, Bool.or_true, if_true]
    refine .le (.bind (k := 3) hload ?_) (by decide)
    rintro _ regs' m' - ⟨hde, hh, hl⟩
    have hhl : m'.hl = m.registers.h ++ m.registers.l := by rw [Machine.hl, hh, hl]
    rw [storeFromDE, ← hhl]
    refine .get_bind fun code => ?_
    simp only [hkeep, Bool.false_eq_true, if_false]
    exact .bind_record (assigns_storeDE hdata hde) fun code regs => ⟨_, rfl⟩
  | var name =>
    -- A variable is not in DE. The address goes there instead, and the word is loaded into HL.
    have hcond : (({ s with code, regs := aiming held start (.addr (.temp id)) } : State).isInPair
        (.of (.var name)) .d || ((Value.of (.var name)).isConst &&
          ({ s with code, regs := aiming held start (.addr (.temp id)) } : State).isFree .d)) =
          false := by
      have hmatch :
          (aiming held start (.addr (.temp id))).pairMatch? .d (.of (.var name)) = none := by
        cases start <;> rfl
      simp [State.isInPair, hmatch, Value.isConst]
    have hswap : (aiming held start (.addr (.temp id))).swapPairs .d .h =
        aimingDE held start (.addr (.temp id)) := by
      rfl
    rw [hcond]
    refine .bind (n := 1) (k := 8) yields_exchange ?_
    rintro _ _ m₁ hchanges₁ ⟨rfl, hrs₁⟩
    have hready := h.of_changes hchanges₁
    have hbeside : ∀ other, start = some other → other ≠ name := by
      rintro _ hother rfl
      exact hne (congrArg Operand.var (hstart _ hother))
    have ha : held = some name → m₁.registers.a = w.setWidth 8 := by
      obtain ⟨q, hq, rfl⟩ := Option.map_eq_some_iff.mp hw
      rw [hrs₁]
      exact fun hname => hheld name q hname hq
    rw [hswap, storeFromHL]
    refine .bind (n := 3) (k := 5) (yields_loadBeside hready hbeside ha hw) ?_
    rintro _ regs₂ m₂ - ⟨hlight, hhl, hd, he⟩
    have hde : m₂.registers.d ++ m₂.registers.e = m.registers.h ++ m.registers.l := by
      rw [hd, he, hrs₁]
      rfl
    rw [← hde]
    refine .get_bind fun code => ?_
    simp only [hkeep, Bool.false_eq_true, if_false]
    refine .record_bind (fun _ => saveAccumulator_of_light hlight) ?_
    exact .bind_record (assigns_storeHL hdata hhl) fun code regs => ⟨_, rfl⟩

/-! ## Statements about elements and pointers -/

/-- A value is assigned to an element, or to what a pointer points at. HL has the address from the
triple before, and the width of that triple decides how much is stored. -/
theorem assigns_element {address : Word} {e : Triple} (h : Ready data memory s m)
    (hdata : ∀ a, data a) (hpinned : .addr (.var base) ∉ s.pinned)
    (hlast : s.triples.drop (s.pos + 1) = []) (hop : t.op = .assign) (hlhs : t.lhs = .temp e.id)
    (hrhs : t.rhs = some o) (hdirect : t.throughPointer = false)
    (hfind : Triple.find? s.triples e.id = some e)
    (hkind : e.op = .index ∨ e.op = .deref ∧ e.width = .byte)
    (haimed : Aimed s.symbols memory base (.addr (.temp e.id)) address regs m.registers)
    (hne : o ≠ .var base) (hw : o.value? s.symbols { memory } = some w) :
    Assigns data quiet 9 (selectTriple t) s regs m { address, width := e.width } w := by
  obtain ⟨_, _, _, _, _, _, _, _⟩ := t
  cases hop
  cases hlhs
  cases hrhs
  cases hdirect
  refine .get_bind fun code => ?_
  have hbyte : Assigns data quiet 9 (storeByte (.addr (.temp e.id)) (.of o)) s regs m _ w :=
    .le (assigns_storeByte h hdata haimed hw) (by decide)
  -- Only an element can be a word; what a pointer points at is stored as a byte here.
  rcases hkind with hindex | ⟨hderef, hwidth⟩
  · simp only [hfind, hindex, storeElement]
    cases e.width with
    | byte => exact .bind_record hbyte fun code regs => ⟨_, rfl⟩
    | word =>
      exact .bind_record (assigns_storeWord h hdata hpinned hlast haimed hne hw)
        fun code regs => ⟨_, rfl⟩
  · simp only [hfind, hderef, hwidth]
    exact .bind_record hbyte fun code regs => ⟨_, rfl⟩

/-- The address of a variable. -/
theorem yields_selectAddress_var (h : Ready data memory s m) (hop : t.op = .address)
    (hlhs : t.lhs = .var name) (hplace : s.symbols.place? name = some place) :
    Yields data quiet 1 (selectTriple t) s {} m fun _ => HoldsWord t.id place.address := by
  obtain ⟨_, _, _, _, _, _, _, _⟩ := t
  cases hop
  cases hlhs
  refine .record_bind (fun _ => vacateHL_of_light (light_empty.at (by decide))) ?_
  refine .emit_bind (n := 0) rfl (computes_lxi rfl (h.provides.imm_ofSymbol hplace)) ?_
  intro m' hrs _
  refine .record (holdsWord_bindPair light_empty.clearPair ?_)
  rw [hrs]
  exact high_append_low _

/-- The address of an element that is used no more takes no code: it is in HL, and only its name in
the record changes. -/
theorem yields_selectAddress_element {e : Triple} {address : Word} (hop : t.op = .address)
    (hlhs : t.lhs = .temp e.id) (hfind : Triple.find? s.triples e.id = some e)
    (hindex : e.op = .index) (hdead : s.isLiveAfter (.addr (.temp e.id)) = false)
    (hdead' : s.isLiveAfter (.temp e.id) = false)
    (haimed : Aimed s.symbols memory base (.addr (.temp e.id)) address regs m.registers) :
    Yields data quiet 0 (selectTriple t) s regs m fun _ => HoldsWord t.id address := by
  obtain ⟨held, start, rfl, haddress, -⟩ := haimed
  obtain ⟨id, _, _, _, _, _, _, _⟩ := t
  cases hop
  cases hlhs
  refine .get_bind fun code => ?_
  have helement : isElement { s with code, regs := aiming held start (.addr (.temp e.id)) } e.id =
      true := by
    simp [isElement, hfind, hindex]
  rw [helement]
  refine .record_bind (fun _ => locateAddress_of_aiming) (.get_bind fun code => ?_)
  show Yields _ _ _ (if ((s.isLiveAfter (.addr (.temp e.id)) || s.isLiveAfter (.temp e.id)) && _) =
    true then _ else _) _ _ _ _
  rw [hdead, hdead', Bool.or_self, Bool.false_and, if_neg Bool.false_ne_true]
  refine .record ?_
  have hregs : (aiming held start (.addr (.temp e.id))).bindPair .h (.temp id) =
      aiming held start (.temp id) := by
    cases held <;> cases start <;> rfl
  rw [hregs]
  exact ⟨rfl, rfl, light_aiming, haddress⟩

/-- A word variable can be a pointer, and the record stays as it is. -/
theorem requirePointer_run {code : List Instr} (hlhs : t.lhs = .var name)
    (hplace : s.symbols.place? name = some place) (hword : place.width = .word) :
    requirePointer t { s with code, regs } = .ok () { s with code, regs } := by
  have hwidth : s.symbols.widthOf name = .word :=
    (SymbolTable.width_of_place? hplace).symm.trans hword
  simp only [requirePointer, hlhs, get_run, hwidth]
  rfl

/-- A word variable is loaded into HL beside what the accumulator holds. -/
theorem yields_loadPointer (held : Option String) (h : Ready data memory s m)
    (hplace : s.symbols.place? name = some place) (hword : place.width = .word)
    (hregs : regs = held.elim {} fun other => ({} : RegisterFile).bind .a (.var other)) :
    Yields data quiet 1 (loadHL (.of (.var name))) s regs m fun _ regs' rs =>
      regs' = aiming held none (.var name) ∧ rs = withHL m.registers (place.read memory) := by
  have hbyte : s.isByte (.of (.var name)) = false := by
    refine decide_eq_false fun hbyte => ?_
    rw [show s.widthOf (.of (.var name)) = s.symbols.widthOf name from rfl,
      ← SymbolTable.width_of_place? hplace, hword] at hbyte
    cases hbyte
  have hx : (Operand.var name).value? s.symbols { memory } = some (place.read memory) := by
    rw [Operand.value?, hplace]
    rfl
  subst hregs
  refine (yields_loadHL_wide ?_ h hx ?_ (.inr hbyte)).mono (Nat.le_refl 1) ?_
  · cases held with
    | none => exact light_empty.at (by decide)
    | some => exact (light_empty.bind rfl).at (by decide)
  · cases held <;> rfl
  · rintro _ _ _ ⟨rfl, rfl⟩
    exact ⟨by cases held <;> rfl, rfl⟩

/-- The byte that a pointer points at is not read yet. The pointer is loaded into HL, and what it
points at is read through HL where it is used. -/
theorem yields_selectDeref (h : Ready data memory s m) (hop : t.op = .deref)
    (hlhs : t.lhs = .var name) (hplace : s.symbols.place? name = some place)
    (hword : place.width = .word) (base : String) :
    Yields data quiet 1 (selectTriple t) s {} m fun _ =>
      Aimed s.symbols memory base (.addr (.temp t.id)) (place.read memory) := by
  have hpointer (code : List Instr) : requirePointer t { s with code, regs := {} } = _ :=
    requirePointer_run hlhs hplace hword
  obtain ⟨id, _, _, _, _, _, _, _⟩ := t
  cases hop
  cases hlhs
  refine .record_bind hpointer ?_
  refine (yields_loadPointer none h hplace hword rfl).bind (k := 0) ?_
  rintro _ _ m' - ⟨rfl, hrs⟩
  have hlight : (aiming none none (.var name)).LightAt [.h, .l] := by
    simp [LightAt, aiming, RegisterFile.get, Registers.get, Content.value?, reloadable, Value.var]
  refine .record_bind (fun _ => preserveHL_of_light hlight) (.record ?_)
  refine ⟨none, none, rfl, ?_, by rintro _ ⟨⟩, by rintro _ _ ⟨⟩⟩
  rw [hrs]
  exact withHL_hl m.registers _

/-- A byte is assigned through a pointer, in one triple. The byte is in the accumulator before the
pointer is loaded into HL, so neither gets in the way of the other. -/
theorem assigns_throughPointer (h : Ready data memory s m) (hdata : ∀ a, data a)
    (hop : t.op = .assign) (hthrough : t.throughPointer = true) (hlhs : t.lhs = .var name)
    (hrhs : t.rhs = some o) (hplace : s.symbols.place? name = some place)
    (hword : place.width = .word) (hbyte : s.isByte (.of o) = true)
    (hw : o.value? s.symbols { memory } = some w) :
    Assigns data quiet 3 (selectTriple t) s {} m
      { address := place.read memory, width := .byte } w := by
  have hpointer (code : List Instr) : requirePointer t { s with code, regs := {} } = _ :=
    requirePointer_run hlhs hplace hword
  have hwidth : s.widthOf (.of o) ≠ .word := by
    rw [of_decide_eq_true hbyte]
    nofun
  obtain ⟨id, _, _, _, _, _, _, _⟩ := t
  cases hop
  cases hlhs
  cases hrhs
  cases hthrough
  refine .record_bind hpointer (.get_bind fun code => ?_)
  show Assigns _ _ _ (if s.widthOf (.of o) = .word then _ else _) _ _ _ _ _
  rw [if_neg hwidth]
  cases o with
  | temp => cases hw
  | const c =>
    obtain rfl := Option.some.inj hw
    refine .le (.bind (n := 1) (k := 1) (yields_loadPointer none h hplace hword rfl) ?_) (by decide)
    rintro _ _ m' - ⟨rfl, hrs⟩
    have hhl : m'.hl = place.read memory := by
      rw [Machine.hl, hrs, withHL_hl]
    rw [← hhl]
    exact .bind_record (assigns_storeConst hdata c) fun code regs => ⟨_, rfl⟩
  | var other =>
    -- The byte is loaded first, and the pointer then leaves the accumulator alone.
    have hload : Yields data quiet 1 (loadAccumulator (.of (.var other))) s {} m _ :=
      yields_loadByte (light_empty.at (by decide)) h hw (atHand_empty s m _ w) (Bool.or_true _)
    refine .bind (n := 1) (k := 2) hload ?_
    rintro _ _ m₁ hchanges ⟨rfl, ha⟩
    refine .bind (n := 1) (k := 1)
      (yields_loadPointer (some other) (h.of_changes hchanges) hplace hword rfl) ?_
    rintro _ _ m' - ⟨rfl, hrs⟩
    have hhl : m'.hl = place.read memory := by
      rw [Machine.hl, hrs, withHL_hl]
    rw [← hhl]
    refine .bind_record (assigns_storeHeld hdata ?_) fun code regs => ⟨_, rfl⟩
    rw [hrs, ha]
    rfl

end Accumulator.Select
