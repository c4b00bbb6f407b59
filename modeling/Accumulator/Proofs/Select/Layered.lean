import Accumulator.Proofs.Machine.Clean
import Accumulator.Proofs.Peephole.Rewrite
import Accumulator.Proofs.Select.Agree
import Accumulator.Proofs.Triple.Scope
import Accumulator.Select.Program

/-!
# The code and the save slot

While instructions are selected, the code is in one of two shapes. With the save slot empty it is
tidy; with a value saved it is two tidy parts around the push that saved it, and the slot records
where that push stands (`Layered`). A step *lays* its instructions if it leads from such a state to
such a state (`Lays`). Steps lay instructions if their parts do, so the proofs here follow the text
of the steps; only the steps that touch the slot have something to show.
-/

namespace Accumulator.Select

variable {symbols : SymbolTable} {s s' : State} {v : Value} {t : Triple} {α β : Type}

/-- The two parts of the code around the push that the slot records. A value that memory or an
immediate provides is never saved, and the part behind the push leaves the saved word alone until it
is exchanged. -/
structure Parts (symbols : SymbolTable) (slot : Spill) (p : Pair) (before after : List Instr) :
    Prop where
  length : before.length = slot.pushAt
  pair : p.isGeneral = true
  value : reloadable slot.value = false
  front : Tidy symbols 2 0 before
  back : Tidy symbols 2 1 after
  fresh : slot.exchanged = false → Tidy symbols 1 0 after

/-- The shape of the code, given the save slot. -/
inductive Layered (symbols : SymbolTable) (s : State) : Prop where
  | bare (hsymbols : s.symbols = symbols) (hspill : s.spill = none)
      (hcode : Tidy symbols 2 0 s.code)
  | saved {slot : Spill} {p : Pair} {before after : List Instr} (hsymbols : s.symbols = symbols)
      (hspill : s.spill = some slot) (hcode : s.code = before ++ .push p :: after)
      (hparts : Parts symbols slot p before after)

/-- The symbols of the state are the given ones in both shapes. -/
theorem Layered.symbols_eq (h : Layered symbols s) : s.symbols = symbols := by
  cases h with
  | bare hsymbols _ _ | saved hsymbols _ _ _ => exact hsymbols

/-- Without the push that the slot records the code is tidy. -/
theorem Layered.tidy_erase {slot : Spill} (h : Layered symbols s) (hspill : s.spill = some slot)
    (hslot : slot.exchanged = false) : Tidy symbols 2 0 (s.code.eraseIdx slot.pushAt) := by
  cases h with
  | bare _ hnone hcode => cases hnone.symm.trans hspill
  | saved _ hsome hcode hparts =>
    cases hsome.symm.trans hspill
    rw [hcode, ← hparts.length, Peephole.eraseIdx_length_append]
    exact hparts.front.append (hparts.fresh hslot).relax

/-- Only the symbols, the code and the slot matter. -/
theorem Layered.congr (h : Layered symbols s) (hsymbols : s'.symbols = s.symbols)
    (hcode : s'.code = s.code) (hspill : s'.spill = s.spill) : Layered symbols s' := by
  cases h with
  | bare hsame hnone htidy =>
    exact .bare (hsymbols.trans hsame) (hspill.trans hnone) (hcode ▸ htidy)
  | saved hsame hsome heq hparts =>
    exact .saved (hsymbols.trans hsame) (hspill.trans hsome) (hcode.trans heq) hparts

/-- Code that needs one word of the stack is added. -/
theorem Layered.append {is : List Instr} (h : Layered symbols s) (his : Tidy symbols 1 0 is) :
    Layered symbols { s with code := s.code ++ is } := by
  cases h with
  | bare hsymbols hnone htidy => exact .bare hsymbols hnone (htidy.append his.relax)
  | saved hsymbols hsome hcode hparts =>
    refine .saved hsymbols hsome ?_ { hparts with
      back := hparts.back.append his.raise
      fresh := fun hslot => (hparts.fresh hslot).append his }
    show s.code ++ is = _
    rw [hcode, List.append_assoc, List.cons_append]

/-! ## Steps that lay instructions -/

/-- The step leads from layered states to layered states. -/
def Lays (symbols : SymbolTable) (x : Selecting α) : Prop :=
  ∀ s, Layered symbols s → After x s fun _ s' => Layered symbols s'

namespace Lays

theorem bind {x : Selecting α} {f : α → Selecting β} (hx : Lays symbols x)
    (hf : ∀ a, Lays symbols (f a)) : Lays symbols (x >>= f) := by
  intro s hs
  rw [after_bind]
  exact (hx s hs).mono fun a s' hs' => hf a s' hs'

theorem pure (a : α) : Lays symbols (Pure.pure a : Selecting α) :=
  fun _ hs => (after_pure a).mpr hs

theorem get : Lays symbols (MonadState.get : Selecting State) :=
  fun _ hs => after_get.mpr hs

/-- A step may look at the state, whose symbols are known. -/
theorem get_bind {f : State → Selecting α}
    (hf : ∀ s, s.symbols = symbols → Lays symbols (f s)) :
    Lays symbols (MonadState.get >>= f) := by
  intro s hs
  rw [after_bind, after_get]
  exact hf s hs.symbols_eq s hs

theorem ite {c : Prop} [Decidable c] {x y : Selecting α} (hx : Lays symbols x)
    (hy : Lays symbols y) : Lays symbols (if c then x else y) := by
  split
  · exact hx
  · exact hy

/-- A choice, where each branch knows which way the choice went. -/
theorem ite' {c : Prop} [Decidable c] {x y : Selecting α} (hx : c → Lays symbols x)
    (hy : ¬c → Lays symbols y) : Lays symbols (if c then x else y) := by
  split
  next hc => exact hx hc
  next hc => exact hy hc

theorem throw (e : Failure) : Lays symbols (MonadExcept.throw e : Selecting α) :=
  fun s _ => after_throw (s := s) e

theorem reject (reason : Rejection) : Lays symbols (Select.reject reason : Selecting α) :=
  fun _ _ => after_reject _

theorem rejectIllegal (reason : Illegality) :
    Lays symbols (Select.rejectIllegal t reason : Selecting α) :=
  throw _

theorem rejectTooComplex : Lays symbols (Select.rejectTooComplex : Selecting α) :=
  fun _ _ => after_rejectTooComplex

/-- The record of the registers is not part of the shape. -/
theorem record (f : RegisterFile → RegisterFile) : Lays symbols (record f) :=
  fun _ hs => (after_record _).mpr (hs.congr rfl rfl rfl)

/-- Instructions may be added that need at most one word of the stack and give it back. -/
theorem emitAll {is : List Instr} (his : Tidy symbols 1 0 is) : Lays symbols (emitAll is) :=
  fun _ hs => (after_emitAll _).mpr (hs.append his)

theorem emit {i : Instr} (hi : i.isPlain symbols = true) : Lays symbols (emit i) :=
  emitAll (.of_plain (by simpa using hi))

end Lays

/-! ## Making room -/

theorem lays_takeWork (exclude : List Reg) : Lays symbols (takeWork exclude) := by
  unfold takeWork
  refine .bind .get fun s => ?_
  split
  · exact .bind (.record _) fun _ => .pure _
  · exact .reject _

theorem lays_keepByte (v : Value) (r : Reg) (lost : List Reg) (afterCurrent : Bool) :
    Lays symbols (keepByte v r lost afterCurrent) := by
  unfold keepByte
  refine .bind .get fun s => .ite ?_ (.pure _)
  exact .bind (lays_takeWork lost) fun target => .bind (.emit rfl) fun _ => .record _

theorem lays_keepScalar (r : Reg) (lost : List Reg) (afterCurrent : Bool) :
    Lays symbols (keepScalar r lost afterCurrent) := by
  unfold keepScalar
  refine .bind .get fun s => ?_
  split
  · exact lays_keepByte _ _ _ _
  · exact .pure _

/-- Saving the accumulator adds a move at most. -/
theorem lays_saveAccumulator (afterCurrent : Bool) :
    Lays symbols (saveAccumulator afterCurrent) := by
  unfold saveAccumulator
  refine .bind .get fun s => ?_
  split
  · exact .pure _
  · refine .ite ?_ (.pure _)
    split
    · exact .bind (.record _) fun _ => .bind (.emit rfl) fun _ => .record _
    · exact .reject _

theorem lays_exchange : Lays symbols exchange :=
  .bind (.emit rfl) fun _ => .record _

theorem lays_copyPair (source target : Pair) : Lays symbols (copyPair source target) := by
  unfold copyPair
  split
  · exact .bind (.emitAll (.of_plain rfl)) fun _ => .record _
  · exact .pure _

theorem reloadable_of_mustKeep {lost : List Reg} {afterCurrent : Bool}
    (h : s.mustKeep v lost afterCurrent = true) : reloadable v = false := by
  simp only [State.mustKeep, State.hasCopy, Bool.and_eq_true, Bool.not_eq_true',
    Bool.or_eq_false_iff] at h
  exact h.2.1.1

/-- A push fills the empty slot, which records where the push stands: behind the code that is
there. -/
theorem after_pushSpill {p : Pair} (hs : Layered symbols s) (hspill : s.spill = none)
    (hp : p.isGeneral = true) (hv : reloadable v = false) :
    After (pushSpill p v) s fun _ s' => Layered symbols s' := by
  cases hs with
  | bare hsymbols hnone hcode =>
    simp only [pushSpill, after_bind, after_get, after_emit, after_modify]
    exact .saved hsymbols rfl rfl ⟨rfl, hp, hv, hcode, .nil, fun _ => .nil⟩
  | saved _ hsome _ _ => cases hspill.symm.trans hsome

/-- The exchange with the top of the stack needs a word on it, and leaves one. -/
theorem tidy_xthl : Tidy symbols 2 1 [.xthl] where
  ordinary := List.forall_mem_singleton.mpr rfl
  skips := SkipsClear.nil.cons rfl
  closed := rfl
  regular := List.forall_mem_singleton.mpr rfl
  shallow := rfl

/-- HL is pushed, if the slot is empty, or exchanged with the slot. After an exchange the push can
no longer be taken back. -/
theorem lays_spillHL (incoming : Option Value) (hv : reloadable v = false) :
    Lays symbols (spillHL v incoming) := by
  intro s hs
  simp only [spillHL, after_bind, after_get]
  split
  next hspill =>
    rw [after_bind]
    exact (after_pushSpill hs hspill rfl hv).mono fun _ _ hs' => (after_pure _).mpr hs'
  next slot hspill =>
    refine after_ite (fun _ => ?_) fun _ => ?_
    · simp only [after_bind, after_emit, after_modify, after_record, after_pure]
      cases hs with
      | bare _ hnone hcode => cases hnone.symm.trans hspill
      | saved hsymbols hsome hcode hparts =>
        cases hsome.symm.trans hspill
        refine .saved hsymbols rfl ?_ { hparts with
          value := hv
          back := hparts.back.append tidy_xthl
          fresh := fun h => by cases h }
        show s.code ++ [.xthl] = _
        rw [hcode, List.append_assoc, List.cons_append]
    · exact after_reject _

/-- HL is vacated by instructions that leave the stack alone, or by filling the save slot. -/
theorem lays_vacateHL (incoming : Option Value) : Lays symbols (vacateHL incoming) := by
  unfold vacateHL
  refine .bind .get fun s => ?_
  split
  · refine .ite (.pure _) (.ite' (fun hkeep => .ite ?_ (.ite ?_ ?_)) fun _ => ?_)
    · exact .bind lays_exchange fun _ => .bind (.record _) fun _ => .pure _
    · exact .bind (lays_copyPair _ _) fun _ => .bind (.record _) fun _ => .pure _
    · refine .bind (lays_spillHL _ (reloadable_of_mustKeep hkeep)) fun _ => .ite (.pure _) ?_
      exact .bind (.record _) fun _ => .pure _
    · exact .bind (.record _) fun _ => .pure _
  · refine .bind (lays_keepScalar _ _ _) fun _ => .bind (lays_keepScalar _ _ _) fun _ => ?_
    exact .bind (.record _) fun _ => .pure _

/-- Copying HL lays instructions, since the copy goes to a pair or to the save slot. -/
theorem lays_preserveHL : Lays symbols preserveHL := by
  unfold preserveHL
  refine .bind .get fun s => ?_
  split
  · refine .ite' (fun hkeep => .ite (lays_copyPair _ _) (.ite (lays_copyPair _ _) ?_))
      fun _ => .pure _
    exact .bind (lays_spillHL _ (reloadable_of_mustKeep hkeep)) fun _ => .pure _
  · exact .bind (lays_keepScalar _ _ _) fun _ => lays_keepScalar _ _ _

/-- The word of a pair goes to another pair or to the save slot. -/
theorem lays_movePairAside {p : Pair} (hp : p.isGeneral = true) (hv : reloadable v = false) :
    Lays symbols (movePairAside p v) := by
  intro s hs
  simp only [movePairAside, after_bind, after_get]
  refine after_ite (fun _ => ?_) fun _ => after_ite (fun _ => ?_) fun _ => ?_
  · exact lays_copyPair _ _ s hs
  · exact Lays.bind (lays_vacateHL none) (fun _ => lays_exchange) s hs
  · refine after_ite (fun hspill => ?_) fun _ => ?_
    · exact after_pushSpill hs (Option.isNone_iff_eq_none.mp hspill) hp hv
    · exact after_reject _

/-- Vacating a pair lays instructions; only the case of a word can touch the slot. -/
theorem lays_vacatePair (p : Pair) : Lays symbols (vacatePair p) := by
  unfold vacatePair
  split
  · exact .pure _
  next high low hhalves =>
    have hp := Pair.isGeneral_of_halves? hhalves
    refine .bind .get fun s => ?_
    dsimp only
    split
    · refine .ite' (fun hkeep => .bind ?_ fun _ => .record _) fun _ => .record _
      exact lays_movePairAside hp (reloadable_of_mustKeep hkeep)
    · refine .bind (lays_keepScalar _ _ _) fun _ => .bind (lays_keepScalar _ _ _) fun _ => ?_
      exact .record _

/-- Vacating a register lays instructions, as vacating its pair does. -/
theorem lays_vacateReg (r : Reg) : Lays symbols (vacateReg r) := by
  unfold vacateReg
  refine .bind .get fun s => ?_
  dsimp only
  split
  · exact .record _
  · split
    · exact .record _
    · exact .bind (lays_vacateHL _) fun _ => .record _
    · exact .bind (lays_vacatePair _) fun _ => .record _
  · exact .bind (lays_keepByte _ _ _ _) fun _ => .record _

/-- A pop empties the slot. The two parts and the push and pop around the second are tidy
together. -/
theorem lays_popSpill {p : Pair} (hp : p.isGeneral = true) : Lays symbols (popSpill p) := by
  intro s hs
  simp only [popSpill, after_bind, after_get]
  split
  · exact (after_pure _).mpr hs
  next slot hspill =>
    simp only [after_bind, after_emit, after_modify, after_record]
    cases hs with
    | bare _ hnone hcode => cases hnone.symm.trans hspill
    | saved hsymbols hsome hcode hparts =>
      refine .bare hsymbols rfl ?_
      show Tidy symbols 2 0 (s.code ++ [.pop p])
      rw [hcode, List.append_assoc]
      exact hparts.front.append (hparts.back.enclose hp hparts.pair (by decide))

/-- A push is taken back only if the slot was not exchanged, and then the code without it is
tidy. -/
theorem lays_dropDeadSpill : Lays symbols dropDeadSpill := by
  intro s hs
  simp only [dropDeadSpill, after_bind, after_get]
  split
  · exact (after_pure _).mpr hs
  next slot hspill =>
    refine after_ite (fun hdead => ?_) fun _ => (after_pure _).mpr hs
    simp only [Bool.and_eq_true, Bool.not_eq_true'] at hdead
    exact (after_set _).mpr (.bare hs.symbols_eq rfl (hs.tidy_erase hspill hdead.1))

/-! ## Loading values -/

/-- The variable that the value comes from, if it comes from one, is declared. -/
def Declared (symbols : SymbolTable) (v : Value) : Prop :=
  ∀ name, v.operand = .var name → symbols.contains name = true

theorem Declared.of_const (c : Int) : Declared symbols (.const c) := by
  rintro name ⟨⟩

theorem Declared.temp (id : Nat) : Declared symbols (.addr (.temp id)) := by
  rintro name ⟨⟩

/-- A regular instruction with an immediate is plain if its symbol is declared. -/
theorem isPlain_of_imm? {i : Instr} {name : String} {offset : Int}
    (hi : i.imm? = some (.sym name offset)) (hregular : i.isRegular symbols = true)
    (hname : symbols.contains name = true) : i.isPlain symbols = true := by
  cases i with
  | lda a | sta a | lhld a | shld a =>
    cases hi
    simp [Instr.isPlain, Instr.isOrdinary, Instr.isControl, Instr.depth?, Instr.imm?, Imm.symbol?,
      Instr.pair?, Instr.depthIn?, hname, hregular]
  | lxi p a =>
    cases hi
    have hp : p ≠ .sp := by
      rintro rfl
      cases hregular
    simp [Instr.isPlain, Instr.isOrdinary, Instr.isControl, Instr.depth?, Instr.imm?, Imm.symbol?,
      Instr.pair?, Instr.depthIn?, hname, hregular, hp]
  | _ => cases hi

/-- A word variable is loaded and stored as a whole. -/
theorem isRegular_of_word {name : String} (hword : symbols.widthOf name = .word) :
    Instr.isRegular symbols (.lhld (.ofSymbol name)) = true ∧
      Instr.isRegular symbols (.shld (.ofSymbol name)) = true := by
  simp [Instr.isRegular, Imm.ofSymbol, hword]

theorem widthOf_of_isByte {name : String} (hsymbols : s.symbols = symbols)
    (h : ¬s.isByte (.var name) = true) : symbols.widthOf name = .word := by
  cases hwidth : symbols.widthOf name with
  | word => rfl
  | byte =>
    refine absurd ?_ h
    rw [← hsymbols] at hwidth
    exact decide_eq_true hwidth

/-- A word that is held somewhere is brought to HL by moves, an exchange or a pop. -/
theorem lays_loadHLHeld (v : Value) : Lays symbols (loadHLHeld v) := by
  have hsaved (c : Prop) [Decidable c] : Lays symbols (if c then do
      if ← vacateHL (some v) then
        return true
      popSpill .h
      return true
    else return false) := by
    refine .ite (.bind (lays_vacateHL _) fun _ => .ite (.pure _) ?_) (.pure _)
    exact .bind (lays_popSpill rfl) fun _ => .pure _
  unfold loadHLHeld
  refine .bind .get fun s => ?_
  dsimp only
  split
  · exact .ite (.pure _) (hsaved _)
  · exact .ite (.bind lays_exchange fun _ => .pure _) (hsaved _)
  · refine .ite (.bind (lays_vacateHL _) fun _ => .ite (.pure _) ?_) (hsaved _)
    exact .bind (lays_copyPair _ _) fun _ => .pure _
  · exact hsaved _

/-- HL is vacated and loaded. -/
theorem lays_loadImmediate {i : Instr} {f : RegisterFile → RegisterFile} {a : α}
    (hi : i.isPlain symbols = true) : Lays symbols (do
      let _ ← vacateHL none
      emit i
      record f
      return a) :=
  .bind (lays_vacateHL _) fun _ => .bind (.emit hi) fun _ => .bind (.record _) fun _ => .pure _

/-- HL is loaded from where the value is held, from memory, or with an immediate. -/
theorem lays_loadHLDirect (hv : Declared symbols v) : Lays symbols (loadHLDirect v) := by
  unfold loadHLDirect
  refine .bind (lays_loadHLHeld v) fun _ => .ite (.pure _) (.get_bind fun s hsymbols => ?_)
  split
  · exact lays_loadImmediate rfl
  · refine .ite' (fun _ => .pure _) fun hbyte => lays_loadImmediate ?_
    exact isPlain_of_imm? rfl (isRegular_of_word (widthOf_of_isByte hsymbols hbyte)).1 (hv _ rfl)
  · exact lays_loadImmediate (isPlain_of_imm? rfl rfl (hv _ rfl))
  · exact .pure _

/-- A byte is loaded through the pair that holds its address. -/
theorem lays_loadFromAddress {o : Operand} (ho : Declared symbols (.addr o)) :
    Lays symbols (loadFromAddress o) := by
  unfold loadFromAddress
  refine .bind .get fun s => ?_
  split
  · exact .emit rfl
  · exact .emit rfl
  · exact .bind (lays_loadHLDirect ho) fun _ => .ite (.emit rfl) .rejectTooComplex

/-- The low byte of a value that no register holds is loaded from memory or as an immediate. -/
theorem lays_loadLowByte (hv : Declared symbols v) : Lays symbols (loadLowByte v) := by
  unfold loadLowByte
  refine .bind .get fun s => ?_
  split
  · split
    · exact .emit rfl
    · exact .rejectTooComplex
  · refine .ite (.bind (lays_loadHLDirect hv) fun _ => .ite (.emit rfl) ?_) ?_
    · exact .rejectTooComplex
    · exact .rejectTooComplex

/-- The accumulator is filled from a register, through a pair, from memory or with an immediate. -/
theorem lays_fillAccumulator (hv : Declared symbols v) : Lays symbols (fillAccumulator v) := by
  unfold fillAccumulator
  refine .bind .get fun s => ?_
  split
  · exact .emit rfl
  · refine .ite (.emit rfl) ?_
    split
    · exact .emit rfl
    · exact .emit (isPlain_of_imm? rfl rfl (hv _ rfl))
    · exact .ite (lays_loadFromAddress hv) (lays_loadLowByte hv)
    · exact lays_loadLowByte hv

theorem lays_loadAccumulator (hv : Declared symbols v) : Lays symbols (loadAccumulator v) := by
  unfold loadAccumulator
  refine .bind .get fun s => .ite (.pure _) ?_
  refine .bind (lays_saveAccumulator _) fun _ => .bind (lays_fillAccumulator hv) fun _ => ?_
  exact .bind .get fun s => .ite (.record _) (.record _)

/-- A byte is found in a register or loaded into the accumulator. -/
theorem lays_locateByte (hv : Declared symbols v) (avoid : List Reg) :
    Lays symbols (locateByte v avoid) := by
  unfold locateByte
  refine .bind .get fun s => ?_
  split
  · exact .ite (.bind (lays_loadAccumulator hv) fun _ => .pure _) (.pure _)
  · exact .bind (lays_loadAccumulator hv) fun _ => .pure _

/-- HL is loaded; a byte is extended with zero after it was located. -/
theorem lays_loadHL (hv : Declared symbols v) : Lays symbols (loadHL v) := by
  unfold loadHL
  refine .bind (lays_loadHLDirect hv) fun _ => .ite (.pure _) ?_
  split
  · refine .bind .get fun s => .ite ?_ .rejectTooComplex
    refine .bind (lays_locateByte hv _) fun r => .bind (lays_vacateHL _) fun _ => ?_
    exact .bind (.emitAll (.of_plain rfl)) fun _ => .record _
  · exact .rejectTooComplex

/-- A word variable is loaded into a pair by way of HL. -/
theorem lays_loadPairVariable (p : Pair) {name : String} (hname : symbols.contains name = true)
    (hword : symbols.widthOf name = .word) : Lays symbols (loadPairVariable p name) := by
  have hload : Tidy symbols 1 0 [.lhld (.ofSymbol name)] :=
    .of_plain (by simpa using isPlain_of_imm? rfl (isRegular_of_word hword).1 hname)
  have hexchange : Tidy symbols 1 0 [.xchg] := .of_plain rfl
  have hmove : Tidy symbols 1 0 [.mov .b .h, .mov .c .l] := .of_plain rfl
  have hinner : Tidy symbols 1 1 [.lhld (.ofSymbol name), .mov .b .h, .mov .c .l] :=
    { hload.append hmove with shallow := rfl }
  unfold loadPairVariable
  dsimp only
  refine .ite (.bind .get fun s => .ite ?_ ?_) ?_
  · refine .bind (lays_vacateHL _) fun _ => .bind ?_ fun _ => .record _
    exact .emitAll (hload.append hexchange)
  · exact .bind (.emitAll (hexchange.append (hload.append hexchange))) fun _ => .record _
  · refine .bind (.emitAll ?_) fun _ => .record _
    exact hinner.enclose rfl rfl (by decide)

/-- A word that is held somewhere is brought to a pair. -/
theorem lays_loadPairHeld {p : Pair} (v : Value) (hp : p.isGeneral = true) :
    Lays symbols (loadPairHeld p v) := by
  have hsaved (c : Prop) [Decidable c] : Lays symbols (if c then do
      vacatePair p
      popSpill p
      return true
    else return false) := by
    refine .ite (.bind (lays_vacatePair _) fun _ => ?_) (.pure _)
    exact .bind (lays_popSpill hp) fun _ => .pure _
  unfold loadPairHeld
  refine .bind .get fun s => ?_
  dsimp only
  split
  · refine .ite (.ite ?_ (.pure _)) (hsaved _)
    exact .bind (lays_vacatePair _) fun _ => .bind (lays_copyPair _ _) fun _ => .pure _
  · exact hsaved _

/-- A pair is loaded from where the value is held, from memory, or with an immediate. -/
theorem lays_loadPair (p : Pair) (hv : Declared symbols v) : Lays symbols (loadPair p v) := by
  unfold loadPair
  split
  · exact .rejectTooComplex
  next high low hhalves =>
    have hp := Pair.isGeneral_of_halves? hhalves
    have hlxi (c : Int) : Instr.isPlain symbols (.lxi p (.num c)) = true := by
      cases p <;> first | rfl | cases hp
    refine .bind (lays_loadPairHeld v hp) fun _ => .ite (.pure _) (.get_bind fun s hsymbols => ?_)
    split
    · exact .bind (lays_vacatePair _) fun _ => .bind (.emit (hlxi _)) fun _ => .record _
    · refine .bind (lays_vacatePair _) fun _ => .bind (.emit ?_) fun _ => .record _
      exact isPlain_of_imm? rfl hp (hv _ rfl)
    · refine .ite' (fun _ => ?_) fun hbyte => ?_
      · refine .bind (lays_locateByte hv _) fun r => .bind (lays_vacatePair _) fun _ => ?_
        exact .bind (.emitAll (.of_plain rfl)) fun _ => .record _
      · split
        · refine .bind (lays_vacatePair _) fun _ => lays_loadPairVariable _ (hv _ rfl) ?_
          exact widthOf_of_isByte hsymbols hbyte
        · exact .rejectTooComplex
    · exact .rejectTooComplex

/-- A byte is found in a register, given as an immediate, or loaded. -/
theorem lays_byteSource (hv : Declared symbols v) : Lays symbols (byteSource v) := by
  unfold byteSource
  refine .bind .get fun s => ?_
  split
  · exact .pure _
  · exact .ite (.pure _) (.bind (lays_loadAccumulator hv) fun _ => .pure _)

theorem lays_loadReg (r : Reg) (hv : Declared symbols v) : Lays symbols (loadReg r v) := by
  unfold loadReg
  refine .bind .get fun s => .ite (.pure _) ?_
  dsimp only
  split
  · exact .bind (lays_vacateReg _) fun _ => .bind (.emit rfl) fun _ => .record _
  · refine .bind (lays_byteSource hv) fun source => .bind (lays_vacateReg _) fun _ => ?_
    exact .bind (.emit rfl) fun _ => .record _

/-- Everything that the routine destroys is saved before the call, which uses one word of the
stack. -/
theorem lays_callRoutine (routine : Routine) : Lays symbols (callRoutine routine) := by
  unfold callRoutine
  refine .bind (.emit rfl) fun _ => .bind (.record _) fun _ => .ite (.record _) (.pure _)

theorem lays_forgetStale (written : Option String) (stored : Value) :
    Lays symbols (forgetStale written stored) :=
  .bind .get fun _ => .record _

/-- In the end the code is tidy. A push that is left over is taken back, and an exchanged slot is
rejected. -/
theorem after_settleStack (hs : Layered symbols s) :
    After settleStack s fun _ s' => Tidy symbols 2 0 s'.code := by
  simp only [settleStack, after_bind, after_get]
  split
  next hspill =>
    cases hs with
    | bare _ _ hcode => exact (after_pure _).mpr hcode
    | saved _ hsome _ _ => cases hspill.symm.trans hsome
  next slot hspill =>
    refine after_ite (fun _ => after_throw _) fun hslot => ?_
    exact (after_set _).mpr (hs.tidy_erase hspill (Bool.eq_false_iff.mpr hslot))

end Accumulator.Select
