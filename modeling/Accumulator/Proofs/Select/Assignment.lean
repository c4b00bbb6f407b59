import Accumulator.Proofs.Peephole.Absolute
import Accumulator.Proofs.Select.WordOperation
import Accumulator.Select.Access

/-!
# Assignments

The last step of a statement stores a value and is done with the registers. `Assigns` says of a step
that it succeeds, and that its code stores a value at a place and changes no other data. A variable
is assigned by one store by its name, or through HL where that points at it.
-/

namespace Accumulator

open Machine

/-- A store changes what memory holds alike, whatever memory held. So two memories that agree on
some bytes agree on them after the same store. -/
theorem Place.read_write_congr {place : Place} {memory memory' : Memory} {w a : Word}
    (h : memory'.read a = memory.read a) :
    (place.write memory' w).read a = (place.write memory w).read a := by
  have hwrite {x y : Memory} {b : Word} {v : Byte} (h : x.read a = y.read a) :
      (x.write b v).read a = (y.write b v).read a := by
    by_cases hb : a = b
    · rw [hb, Memory.read_write_self, Memory.read_write_self]
    · rw [Memory.read_write_of_ne _ _ hb, Memory.read_write_of_ne _ _ hb, h]
  unfold Place.write
  split
  · exact hwrite h
  · exact hwrite (hwrite h)

namespace Select

open RegisterFile

variable {data : Word → Prop} {quiet : Bool} {s : State} {regs : RegisterFile} {m m' m₁ : Machine}
  {memory : Memory} {place : Place} {w : Word} {n k : Nat} {name : String} {v : Value}
  {front rest : List Instr}

/-- Code with at most one store by name that uses the stack for calls only, or not at all. -/
structure Straight (quiet : Bool) (code : List Instr) : Prop where
  storesOnce : Peephole.StoresOnce code
  calm : quiet = true → ∀ i ∈ code, i.isCalm = true

/-- Tame code in front of code with one store at its end leaves it such code. -/
theorem Straight.append (hfront : front.all (Instr.isTame quiet) = true)
    (hrest : Straight quiet rest) : Straight quiet (front ++ rest) := by
  have htame := List.all_eq_true.mp hfront
  refine ⟨⟨?_, ?_⟩, fun hquiet => ?_⟩
  · exact List.forall_mem_append.mpr
      ⟨fun i hi => (Instr.isFlat_of_isTame (htame i hi)).1, hrest.storesOnce.flat⟩
  · have hnone : front.countP Instr.isNamedStore = 0 :=
      List.countP_eq_zero.mpr fun i hi => by
        rw [(Instr.isFlat_of_isTame (htame i hi)).2]
        nofun
    rw [List.countP_append, hnone, Nat.zero_add]
    exact hrest.storesOnce.once
  · refine List.forall_mem_append.mpr ⟨fun i hi => ?_, hrest.calm hquiet⟩
    have hi := htame i hi
    rw [hquiet] at hi
    cases i <;> first | exact hi | rfl

theorem straight_of_tame {code : List Instr} (h : code.all (Instr.isTame quiet) = true) :
    Straight quiet code := by
  rw [← List.append_nil code]
  exact .append h ⟨⟨List.forall_mem_nil _, Nat.zero_le 1⟩, fun _ => List.forall_mem_nil _⟩

/-- The second machine is as the first one with `w` stored at the place, as far as data goes. -/
structure Written (data : Word → Prop) (place : Place) (w : Word) (m m' : Machine) : Prop where
  sp : m'.sp = m.sp
  memory : ∀ a, data a → m'.memory.read a = (place.write m.memory w).read a

theorem Written.of_changes {rs : Registers Byte} (h : Written data place w m₁ m')
    (hchanges : Changes data rs m m₁) : Written data place w m m' where
  sp := h.sp.trans hchanges.sp
  memory a ha := (h.memory a ha).trans (Place.read_write_congr (hchanges.memory a ha))

/-- The step succeeds, with any code before it. Its own code has at most `n` instructions and stores
`w` at the place. -/
def Assigns (data : Word → Prop) (quiet : Bool) (n : Nat) (x : Selecting Unit) (s : State)
    (regs : RegisterFile) (m : Machine) (place : Place) (w : Word) : Prop :=
  ∀ code, ∃ more regs',
    x { s with code, regs } = .ok () { s with code := code ++ more, regs := regs' } ∧
      Straight quiet more ∧ more.length ≤ n ∧
      ∃ m', Walks data more m m' ∧ Written data place w m m'

namespace Assigns

variable {α : Type} {x : Selecting α} {y : Selecting Unit} {f : α → Selecting Unit}
  {Q : α → RegisterFile → Registers Byte → Prop}

/-- A bound on the length of the code may be raised. -/
theorem le (h : Assigns data quiet n y s regs m place w) (hn : n ≤ k) :
    Assigns data quiet k y s regs m place w := by
  intro code
  obtain ⟨more, regs', hrun, hmore, hlength, hwalks⟩ := h code
  exact ⟨more, regs', hrun, hmore, Nat.le_trans hlength hn, hwalks⟩

/-- A step may be replaced by one that does the same from every state with this record. -/
theorem of_eq {z : Selecting Unit} (h : Assigns data quiet n z s regs m place w)
    (heq : ∀ code, y { s with code, regs } = z { s with code, regs }) :
    Assigns data quiet n y s regs m place w := by
  intro code
  rw [heq]
  exact h code

/-- A step that computes before one that assigns. The lengths of their code add up. -/
theorem bind (hx : Yields data quiet n x s regs m Q)
    (hf : ∀ a regs' m', Changes data m'.registers m m' → Q a regs' m'.registers →
      Assigns data quiet k (f a) s regs' m' place w) :
    Assigns data quiet (n + k) (x >>= f) s regs m place w := by
  intro code
  obtain ⟨a, front, regs', rs, hx, htame, hlength, ⟨m₁, hwalks, hchanges⟩, hQ⟩ := hx code
  obtain rfl := hchanges.registers
  obtain ⟨rest, regs'', hf, hrest, hlength', m', hwalks', hwritten⟩ :=
    hf a regs' m₁ hchanges hQ (code ++ front)
  refine ⟨front ++ rest, regs'', ?_, .append htame hrest, ?_, m', hwalks.append hwalks',
    hwritten.of_changes hchanges⟩
  · rw [bind_run hx, ← List.append_assoc]
    exact hf
  · rw [List.length_append]
    omega

theorem get_bind {f : State → Selecting Unit}
    (h : ∀ code, Assigns data quiet n (f { s with code, regs }) s regs m place w) :
    Assigns data quiet n (MonadState.get >>= f) s regs m place w :=
  fun code => h code code

/-- A step that changes the record only, before one that assigns. -/
theorem record_bind {a : α} {regs' : RegisterFile}
    (hx : ∀ code, x { s with code, regs } = .ok a { s with code, regs := regs' })
    (h : Assigns data quiet n (f a) s regs' m place w) :
    Assigns data quiet n (x >>= f) s regs m place w := by
  intro code
  rw [bind_run (hx code)]
  exact h code

/-- What changes the record only may follow a step that assigns. -/
theorem bind_record {f : Unit → Selecting Unit} (h : Assigns data quiet n y s regs m place w)
    (hf : ∀ code regs, ∃ regs', f () { s with code, regs } =
      .ok () { s with code, regs := regs' }) :
    Assigns data quiet n (y >>= f) s regs m place w := by
  intro code
  obtain ⟨more, regs', hrun, hmore, hlength, hwalks⟩ := h code
  obtain ⟨regs'', hf⟩ := hf (code ++ more) regs'
  exact ⟨more, regs'', by rw [bind_run hrun, hf], hmore, hlength, hwalks⟩

theorem emitAll {is : List Instr} (his : Straight quiet is) (hwalks : Walks data is m m')
    (hwritten : Written data place w m m') :
    Assigns data quiet is.length (emitAll is) s regs m place w :=
  fun _ => ⟨is, regs, rfl, his, Nat.le_refl _, m', hwalks, hwritten⟩

end Assigns

/-! ## Stores to a variable -/

theorem straight_store {i : Instr} (hi : i = .sta (.ofSymbol name) ∨ i = .shld (.ofSymbol name)) :
    Straight quiet [i] := by
  rcases hi with rfl | rfl <;>
    exact ⟨⟨List.forall_mem_singleton.mpr rfl, Nat.le_refl 1⟩,
      fun _ => List.forall_mem_singleton.mpr rfl⟩

/-- The accumulator is stored to a byte variable. -/
theorem assigns_sta (h : Provides data s.symbols memory m)
    (hplace : s.symbols.place? name = some place) (hbyte : place.width = .byte)
    (ha : m.registers.a = w.setWidth 8) :
    Assigns data quiet 1 (emit (.sta (.ofSymbol name))) s regs m place w := by
  have himm := h.imm_ofSymbol hplace
  have hstep : m.step (.sta (.ofSymbol name)) = .ok (m.store place.address m.registers.a) := by
    simp only [step, execute, himm]
    rfl
  refine .emitAll (straight_store (.inl rfl)) (.single rfl ?_ hstep) ⟨rfl, fun a _ => ?_⟩
  · intro _ a ha
    refine h.cells hplace a ?_
    simpa [touches, loads, storeCells_sta, immAddress?, himm, Except.toOption, Place.cells, hbyte]
      using ha
  · rw [Place.write, hbyte, ← ha]
    rfl

/-- HL is stored to a word variable. -/
theorem assigns_shld (h : Provides data s.symbols memory m)
    (hplace : s.symbols.place? name = some place) (hword : place.width = .word)
    (hhl : m.registers.h ++ m.registers.l = w) :
    Assigns data quiet 1 (emit (.shld (.ofSymbol name))) s regs m place w := by
  have himm := h.imm_ofSymbol hplace
  have hstep : m.step (.shld (.ofSymbol name)) = .ok (m.storeWord place.address m.hl) := by
    simp only [step, execute, himm]
    rfl
  refine .emitAll (straight_store (.inr rfl)) (.single rfl ?_ hstep) ⟨rfl, fun a _ => ?_⟩
  · intro _ a ha
    refine h.cells hplace a ?_
    simpa [touches, loads, storeCells_shld, immAddress?, himm, Except.toOption, Place.cells, hword,
      wordCells] using ha
  · rw [Place.write, hword, ← hhl]
    rfl

/-- The end of an assignment: what the registers held of the variable is forgotten, and they may be
recorded as holding it now. -/
def settleVariable (name : String) (width : Width) (v : Value) : Selecting Unit := do
  forgetStale (some name) v
  let s ← get
  if !s.isLiveAfter v && s.widthOf v = width then
    retag v (.var name)

/-- Bringing the record up to date after an assignment takes no code and does not fail. -/
theorem exists_settleVariable (name : String) (width : Width) (v : Value) (code : List Instr)
    (regs : RegisterFile) : ∃ regs', settleVariable name width v { s with code, regs } =
      .ok () { s with code, regs := regs' } := by
  have hforget : forgetStale (some name) v { s with code, regs } = .ok () { s with
      code, regs := regs.forget fun u => u ≠ v && isStale s.triples (some name) u } := rfl
  rw [settleVariable, bind_run hforget, get_run]
  split
  · exact ⟨_, rfl⟩
  · exact ⟨_, rfl⟩

/-- What a value has to offer for a variable to be assigned: it can be loaded into the accumulator
or into HL, and if HL points at a byte variable already it is in the accumulator. -/
structure Delivers (data : Word → Prop) (quiet : Bool) (s : State) (regs : RegisterFile)
    (m : Machine) (v : Value) (w : Word) : Prop where
  byte : Yields data quiet 3 (loadAccumulator v) s regs m fun _ _ rs => rs.a = w.setWidth 8
  word : Yields data quiet 4 (loadHL v) s regs m fun _ _ rs => rs.h ++ rs.l = w
  direct : ∀ name place, s.symbols.place? name = some place →
    regs.findPair? (.addr (.var name)) = some .h →
      regs.findByte? v = some .a ∧ m.registers.a = w.setWidth 8 ∧ m.hl = place.address

/-- A variable is assigned: a byte through HL, if HL points at the variable already, or else from
the accumulator, and a word from HL. Five instructions are enough. -/
theorem assigns_storeVariable (h : Provides data s.symbols memory m)
    (hplace : s.symbols.place? name = some place) (hdelivers : Delivers data quiet s regs m v w) :
    Assigns data quiet 5 (storeVariable name v) s regs m place w := by
  have hwidth : s.symbols.widthOf name = place.width := (SymbolTable.width_of_place? hplace).symm
  have hsettle := exists_settleVariable (s := s) name place.width v
  -- The width of the variable decides. For a byte it matters what HL points at when the assignment
  -- comes.
  cases hw : place.width with
  | byte =>
    rw [hw] at hwidth hsettle
    by_cases hpair : regs.findPair? (.addr (.var name)) = some .h
    · have hrun (code : List Instr) : storeVariable name v { s with code, regs } =
          (do storeAtHL v; settleVariable name .byte v : Selecting Unit) { s with code, regs } := by
        rw [storeVariable, get_run]
        simp only [hwidth, hpair]
        rfl
      obtain ⟨hfind, ha, hhl⟩ := hdelivers.direct name place hplace hpair
      refine .of_eq (.bind_record (.le (.get_bind fun code => ?_) (Nat.le_add_left 1 4)) hsettle)
        hrun
      have hfilter : ((some Reg.a).filter fun r => r ≠ .h && r ≠ .l) = some .a := rfl
      simp only [hfind, hfilter]
      have hstep : m.step (.mov .m .a) = .ok (m.store place.address m.registers.a) := by
        rw [← hhl]
        rfl
      refine .emitAll (straight_of_tame rfl) (.single rfl ?_ hstep) ⟨rfl, fun a _ => ?_⟩
      · intro _ a ha
        refine h.cells hplace a ?_
        simpa [touches, loads, storeCells, stores, operandCells, hhl, Place.cells, hw] using ha
      · rw [Place.write, hw, ← ha]
        rfl
    · have hrun (code : List Instr) : storeVariable name v { s with code, regs } =
          (do
            loadAccumulator v
            emit (.sta (.ofSymbol name))
            settleVariable name .byte v : Selecting Unit) { s with code, regs } := by
        rw [storeVariable, get_run]
        simp only [hwidth, hpair]
        rfl
      refine .of_eq (.le (.bind hdelivers.byte (k := 1) ?_) (Nat.le_succ 4)) hrun
      intro _ regs' m' hchanges ha
      exact .bind_record (assigns_sta (h.of_changes hchanges) hplace hw ha) hsettle
  | word =>
    rw [hw] at hwidth hsettle
    have hrun (code : List Instr) : storeVariable name v { s with code, regs } =
        (do
          loadHL v
          emit (.shld (.ofSymbol name))
          settleVariable name .word v : Selecting Unit) { s with code, regs } := by
      rw [storeVariable, get_run]
      simp only [hwidth]
      rfl
    refine .of_eq (.bind hdelivers.word (k := 1) ?_) hrun
    intro _ regs' m' hchanges hhl
    exact .bind_record (assigns_shld (h.of_changes hchanges) hplace hw hhl) hsettle

/-! ## What can be assigned -/

/-- The record of HL, if it says that HL points somewhere. -/
theorem get_h_of_findPair? {u : Value} (h : regs.findPair? u = some .h) :
    regs.get .h = .half u .high := by
  have hmatch := List.find?_some h
  simp only [pairMatch?, Pair.halves?] at hmatch
  split at hmatch
  next hfull => exact hfull.1
  next =>
    split at hmatch <;> cases hmatch

/-- Variables and literals, with nothing in the registers, can be loaded into the accumulator and
into HL. -/
theorem delivers_operand {o : Operand} (h : Ready data memory s m)
    (hw : o.value? s.symbols { memory } = some w) : Delivers data quiet s {} m (.of o) w where
  byte := by
    refine (yields_loadAccumulator (light_empty.at (by decide)) h hw (absent_empty s o)).mono
      (by decide) ?_
    rintro _ _ _ ⟨-, rfl⟩
    rfl
  word := by
    refine (yields_loadHL light_empty h hw rfl fun _ => atHand_empty s m o w).mono (by decide) ?_
    rintro _ _ _ ⟨-, _, rfl⟩
    exact high_append_low _
  direct name place _ hpair := by cases hpair

variable {id : Nat}

/-- The accumulator is searched first, so a byte there is found there. -/
theorem findByte?_of_get_a (h : regs.get .a = .scalar v) : regs.findByte? v = some .a := by
  have hholds : regs.holds .a v = true := decide_eq_true h
  simp only [RegisterFile.findByte?, Reg.all, List.find?_cons, hholds]

/-- A result is not among what can be loaded again, so a record of such values does not mention
it. -/
theorem value?_ne_temp {watched : List Reg} {r : Reg} (hlight : regs.LightAt watched)
    (hr : r ∈ watched) : (regs.get r).value? ≠ some (.temp id) := by
  intro hvalue
  cases hlight r hr _ hvalue

/-- A pair whose halves are not recorded with a value does not match it. -/
theorem pairMatch?_of_value? {p : Pair} {high low : Reg} (hp : p.halves? = some (high, low))
    (h : ∀ r ∈ [high, low], (regs.get r).value? ≠ some v) : regs.pairMatch? p v = none := by
  have hhigh : regs.get high ≠ .half v .high := fun heq => h high (by simp) (by rw [heq]; rfl)
  have hlow : regs.get low ≠ .scalar v := fun heq => h low (by simp) (by rw [heq]; rfl)
  simp [pairMatch?, hp, hhigh, hlow]

/-- A byte result in the accumulator can be stored from there, and is extended into HL for a word
variable. -/
theorem delivers_of_holdsByte {b : Byte} (hspill : s.spill = none)
    (hbyte : s.isByte (.temp id) = true) (h : HoldsByte s.symbols id b regs m.registers) :
    Delivers data quiet s regs m (.temp id) (b.setWidth 16) where
  byte := by
    refine .of_record (fun _ => loadAccumulator_of_holds (decide_eq_true h.record)) ?_
    rw [h.value]
    simp
  word := by
    -- No pair holds the result, because all else in the record can be reloaded. So the byte is
    -- found in the accumulator and extended.
    have hheld (code : List Instr) :
        loadHLHeld (.temp id) { s with code, regs } = .ok false { s with code, regs } := by
      refine loadHLHeld_of_absent ?_ hspill
      have hnone {p : Pair} {high low : Reg} (hp : p.halves? = some (high, low))
          (hregs : ∀ r ∈ [high, low], r ∈ [.b, .c, .d, .e, .h, .l]) :
          regs.pairMatch? p (.temp id) = none :=
        pairMatch?_of_value? hp fun r hr => value?_ne_temp h.light (hregs r hr)
      simp [RegisterFile.findWide?, searchOrder, hnone (p := .h) rfl (by decide),
        hnone (p := .d) rfl (by decide), hnone (p := .b) rfl (by decide)]
    have hdirect (code : List Instr) :
        loadHLDirect (.temp id) { s with code, regs } = .ok false { s with code, regs } :=
      bind_run (hheld code)
    have hlocate (code : List Instr) :
        locateByte (.temp id) [.h, .l] { s with code, regs } = .ok .a { s with code, regs } := by
      rw [locateByte, get_run]
      simp only [findByte?_of_get_a h.record]
      rfl
    have hlight : regs.LightAt [.h, .l] := fun r hr => h.light r (by revert r; decide)
    refine .record_bind hdirect (.get_bind fun code => ?_)
    show Yields _ _ _ (if s.isByte (.temp id) = true then _ else _) _ _ _ _
    rw [if_pos hbyte]
    refine .record_bind hlocate (.record_bind (fun _ => vacateHL_of_light hlight) ?_)
    refine .le (.emitAll_bind (n := 0) rfl (.of_local rfl rfl rfl) fun m' hrs _ => ?_)
      (Nat.le_add_left 2 2)
    refine .record ?_
    rw [hrs]
    show (0 : Byte) ++ m.registers.a = b.setWidth 16
    rw [h.value, zero_append_byte]
  direct name place hplace hpair := by
    refine ⟨findByte?_of_get_a h.record, ?_, h.points name place hplace (get_h_of_findPair? hpair)⟩
    rw [h.value]
    simp

/-- A word result in HL can be stored from there, and its low byte is moved to the accumulator for a
byte variable. -/
theorem delivers_of_holdsWord (hmemory : isMemoryOperand s.triples (.temp id) = false)
    (h : HoldsWord id w regs m.registers) :
    Delivers data quiet s regs m (.temp id) w := by
  have hwide : regs.findWide? (.temp id) = some (.h, .full) := by
    simp [RegisterFile.findWide?, searchOrder, pairMatch?, Pair.halves?, h.high, h.low]
  refine ⟨?_, ?_, ?_⟩
  · -- The low byte of the result is in no register of its own; it is found as the low half of HL.
    have hfind : regs.findByte? (.temp id) = none := by
      refine List.find?_eq_none.mpr fun r hr hholds => ?_
      have hget : regs.get r = .scalar (.temp id) := of_decide_eq_true hholds
      have hvalue (hr : r ∈ [.a, .b, .c, .d, .e]) : (regs.get r).value? ≠ some (.temp id) :=
        value?_ne_temp h.light hr
      rw [hget] at hvalue
      cases r with
      | h => cases h.high.symm.trans hget
      | l => cases h.low.symm.trans hget
      | m => revert hr; decide
      | _ => exact hvalue (by decide) rfl
    have hm (code : List Instr) : ({ s with code, regs } : State).isAtM (.temp id) = false := by
      simp [State.isAtM, State.isMemoryOperand, Value.temp, Operand.var?, hmemory]
    have hfill : Yields data quiet 1 (fillAccumulator (.temp id)) s regs m fun _ _ rs =>
        rs.a = w.setWidth 8 := by
      rw [fillAccumulator]
      refine .get_bind fun code => ?_
      simp only [hfind, hm]
      show Yields _ _ _ (if isMemoryOperand s.triples (.temp id) = true then _ else _) _ _ _ _
      rw [hmemory, if_neg Bool.false_ne_true, loadLowByte]
      refine .get_bind fun code => ?_
      simp only [hwide, Pair.halves?]
      refine .emit rfl (.of_local rfl rfl rfl) ?_
      rw [← h.value]
      exact (low_of_append _ _).symm
    rw [loadAccumulator]
    refine .get_bind fun code => ?_
    simp only [holds_of_findByte? hfind]
    have hlight : regs.LightAt [.a] := fun r hr => h.light r (by revert r; decide)
    refine .record_bind (fun _ => saveAccumulator_of_light hlight) ?_
    refine hfill.bind (k := 2) fun _ regs' m' _ ha => .get_bind fun code => ?_
    split
    · exact .record ha
    · exact .record ha
  · have hheld (code : List Instr) :
        loadHLHeld (.temp id) { s with code, regs } = .ok true { s with code, regs } := by
      rw [loadHLHeld, get_run]
      simp only [hwide]
      rfl
    have hdirect (code : List Instr) :
        loadHLDirect (.temp id) { s with code, regs } = .ok true { s with code, regs } :=
      bind_run (hheld code)
    exact .record_bind hdirect (.pure h.value)
  · intro name place _ hpair
    cases h.high.symm.trans (get_h_of_findPair? hpair)

end Select

end Accumulator
