import Accumulator.Proofs.Select.Performing

/-!
# Placing keeps machine and record in agreement

While the operands of a triple are placed, the machine follows the record step by step (`Follows`).
The count of a shift that is needed again is copied from `c` just before the shift destroys it, with
no look at what the record says of `c`. There the machine follows if the count is where the shift
reads it (`FollowsTo`).
-/

namespace Accumulator.Select

open RegisterFile

variable {ρ : Valuation} {s₀ s s' : State} {m m' : Machine} {α β : Type} {v x y : Value}

/-- Both states are in the middle of the same triple. -/
structure SameTriple (s₀ s : State) : Prop where
  triples : s.triples = s₀.triples
  pinned : s.pinned = s₀.pinned
  pos : s.pos = s₀.pos

/-- A step that leads somewhere stays in the middle of its triple. -/
theorem SameTriple.of_leads (h : SameTriple s₀ s) (hleads : Leads ρ s m s' m') :
    SameTriple s₀ s' :=
  ⟨hleads.frame.triples.trans h.triples, hleads.frame.pinned.trans h.pinned,
    hleads.frame.pos.trans h.pos⟩

/-- In the middle of a triple the same addresses are pinned all the time. -/
theorem SameTriple.pinsAddresses (h : SameTriple s₀ s) (hpins : s₀.PinsAddresses) :
    s.PinsAddresses := by
  intro o ho hmemory
  rw [h.pinned] at ho ⊢
  rw [State.isMemoryOperand, h.triples] at hmemory
  exact hpins o ho hmemory

/-- Wherever the step is taken in the middle of this triple, the machine follows the record. -/
def Follows (ρ : Valuation) (s₀ : State) (x : Selecting α) : Prop :=
  ∀ s m, SameTriple s₀ s → Agrees ρ s m → s.regs.Matched → Tracks ρ x s m fun _ _ _ => True

namespace Follows

theorem bind {x : Selecting α} {f : α → Selecting β} (hx : Follows ρ s₀ x)
    (hf : ∀ a, Follows ρ s₀ (f a)) : Follows ρ s₀ (x >>= f) :=
  fun s m hsame hagrees hmatched => (hx s m hsame hagrees hmatched).bind fun a s' m' hleads _ =>
    hf a s' m' (hsame.of_leads hleads) hleads.agrees hleads.matched

theorem pure (a : α) : Follows ρ s₀ (Pure.pure a : Selecting α) :=
  fun _ _ _ hagrees hmatched => tracks_pure hagrees hmatched trivial

/-- A step may look at the state, of which it is known that it is in the middle of the triple. -/
theorem get {f : State → Selecting α} (h : ∀ s, SameTriple s₀ s → Follows ρ s₀ (f s)) :
    Follows ρ s₀ (MonadState.get >>= f) :=
  fun s m hsame hagrees hmatched => tracks_get (h s hsame s m hsame hagrees hmatched)

theorem ite {c : Prop} [Decidable c] {x y : Selecting α} (hx : c → Follows ρ s₀ x)
    (hy : ¬c → Follows ρ s₀ y) : Follows ρ s₀ (if c then x else y) := by
  split
  next hc => exact hx hc
  next hc => exact hy hc

theorem reject (reason : Rejection) : Follows ρ s₀ (Select.reject reason : Selecting α) :=
  fun _ _ _ _ _ => after_reject _

theorem rejectIllegal {t : Triple} (reason : Illegality) :
    Follows ρ s₀ (Select.rejectIllegal t reason : Selecting α) :=
  reject _

theorem rejectTooComplex : Follows ρ s₀ (Select.rejectTooComplex : Selecting α) :=
  fun _ _ _ _ _ => after_rejectTooComplex

/-- What is known of the outcome is forgotten, so that steps can be put together. -/
theorem of_tracks {x : Selecting α}
    (h : ∀ s m, SameTriple s₀ s → Agrees ρ s m → s.regs.Matched →
      ∃ Q, Tracks ρ x s m Q) : Follows ρ s₀ x := by
  intro s m hsame hagrees hmatched
  obtain ⟨Q, hQ⟩ := h s m hsame hagrees hmatched
  exact hQ.mono fun _ _ _ _ _ => trivial

end Follows

/-- A byte is loaded into a work register, and recorded there. -/
theorem after_takeWork_load {exclude : List Reg} {i : Reg → Instr} {x : Byte}
    (hagrees : Agrees ρ s m) (hmatched : s.regs.Matched)
    (hload : ∀ r, r ≠ .m → Machine.Steps (Provided ρ s m) (i r) m (m.set r x))
    (hx : x = Side.low.part (ρ v)) :
    After (takeWork exclude) s fun r s' => ∃ m',
      Leads ρ s m { s' with code := s'.code ++ [i r], regs := s'.regs.bind r v } m' ∧ True := by
  refine after_takeWork.mono ?_
  rintro r s' ⟨⟨hwork, -, -⟩, rfl⟩
  have hne : r ≠ .m := by
    rintro rfl
    simp at hwork
  have hcleared : Leads ρ s m { s with regs := s.regs.clear r } m :=
    .of_record hagrees hagrees.registers.clear hmatched.clear
  have hback : Leads ρ { s with regs := s.regs.clear r } m s m :=
    .of_record hcleared.agrees hagrees.registers hmatched
  have hstep := (hload r hne).mono fun _ ha => hback.frame.provided ha
  exact ⟨_, hcleared.trans (leads_setRegister hcleared.agrees hcleared.matched hne hstep hx),
    trivial⟩

/-- Saving the accumulator copies a byte, and the record says where. -/
theorem follows_saveAccumulator (afterCurrent : Bool) :
    Follows ρ s₀ (saveAccumulator afterCurrent) :=
  .of_tracks fun _ _ _ hagrees hmatched => ⟨_, tracks_saveAccumulator hagrees hmatched⟩

theorem follows_exchange : Follows ρ s₀ exchange :=
  .of_tracks fun _ _ _ hagrees hmatched => ⟨_, tracks_exchange hagrees hmatched⟩

/-- Copying a pair copies what is recorded of it. -/
theorem follows_copyPair (source target : Pair) : Follows ρ s₀ (copyPair source target) := by
  intro s m hsame hagrees hmatched
  cases hsource : source.halves? with
  | none => simpa only [copyPair, hsource] using tracks_pure hagrees hmatched trivial
  | some sh =>
    cases htarget : target.halves? with
    | none => simpa only [copyPair, hsource, htarget] using tracks_pure hagrees hmatched trivial
    | some th =>
      exact (tracks_copyPair hagrees hmatched hsource htarget).mono fun _ _ _ _ _ => trivial

/-- Copying HL before it is changed keeps the machine in agreement with the record. -/
theorem follows_preserveHL : Follows ρ s₀ preserveHL :=
  .of_tracks fun _ _ _ hagrees hmatched => ⟨_, tracks_preserveHL hagrees hmatched⟩

/-- Vacating DE or BC moves values and records where they are. -/
theorem follows_vacatePair {p : Pair} (hp : p = .d ∨ p = .b) : Follows ρ s₀ (vacatePair p) := by
  obtain rfl | rfl := hp
  · exact .of_tracks fun _ _ _ hagrees hmatched => ⟨_, tracks_vacatePair hagrees hmatched rfl⟩
  · exact .of_tracks fun _ _ _ hagrees hmatched => ⟨_, tracks_vacatePair hagrees hmatched rfl⟩

section Loads

variable (hpins : s₀.PinsAddresses)

include hpins

/-- Operands are pinned, so the accumulator can be loaded with one. -/
theorem follows_loadAccumulator (hv : v ∈ s₀.pinned) : Follows ρ s₀ (loadAccumulator v) :=
  .of_tracks fun _ _ hsame hagrees hmatched =>
    ⟨_, tracks_loadAccumulator hagrees hmatched (hsame.pinsAddresses hpins) (hsame.pinned ▸ hv)⟩

/-- The count of a shift is loaded into `c`, whatever was there before. -/
theorem follows_loadReg (hv : v ∈ s₀.pinned) : Follows ρ s₀ (loadReg .c v) :=
  .of_tracks fun _ _ hsame hagrees hmatched =>
    ⟨_, tracks_loadReg hagrees hmatched (hsame.pinsAddresses hpins) (hsame.pinned ▸ hv)⟩

theorem follows_loadHL (hv : v ∈ s₀.pinned) : Follows ρ s₀ (loadHL v) :=
  .of_tracks fun _ _ hsame hagrees hmatched =>
    ⟨_, tracks_loadHL hagrees hmatched (hsame.pinsAddresses hpins) (hsame.pinned ▸ hv)⟩

theorem follows_loadPair {p : Pair} (hp : p = .d ∨ p = .b) (hv : v ∈ s₀.pinned) :
    Follows ρ s₀ (loadPair p v) :=
  .of_tracks fun _ _ hsame hagrees hmatched =>
    ⟨_, tracks_loadPair hagrees hmatched (hsame.pinsAddresses hpins) (hsame.pinned ▸ hv) hp⟩

/-- A byte that is loaded for a work register is recorded there. -/
theorem follows_prepareSecond (hv : v ∈ s₀.pinned ∨ v.isConst = true) :
    Follows ρ s₀ (prepareSecond v) := by
  refine .get fun s hsame => .ite (fun hneeds => ?_) (fun _ => .pure _)
  have hpinned : v ∈ s₀.pinned := by
    refine hv.resolve_right fun hconst => ?_
    simp [State.needsAccumulator, hconst] at hneeds
  intro s m hsame hagrees hmatched
  refine (tracks_loadAccumulator hagrees hmatched (hsame.pinsAddresses hpins)
    (hsame.pinned ▸ hpinned)).bind fun _ s₁ m₁ hleads₁ hloaded => ?_
  simp only [Tracks, after_bind, after_emit, after_record]
  exact after_takeWork_load hleads₁.agrees hleads₁.matched
    (fun _ hr => .mov hr (by decide)) hloaded.1

/-- A byte is loaded into the accumulator, and a copy is made if it is needed again. -/
theorem follows_loadForChange (hv : v ∈ s₀.pinned) : Follows ρ s₀ (loadForChange v) :=
  .bind (follows_loadAccumulator hpins hv) fun _ => follows_saveAccumulator _

/-- A word is loaded into HL, and a copy is made if it is needed again. -/
theorem follows_loadHLForChange (hv : v ∈ s₀.pinned) : Follows ρ s₀ (loadHLForChange v) :=
  .bind (follows_loadHL hpins hv) fun _ => follows_preserveHL

end Loads

/-- The second operand may be read as `m` where HL points at it already or is made to. -/
theorem follows_secondOperand (hv : v ∈ s₀.pinned ∨ v.isConst = true) :
    Follows ρ s₀ (secondOperand v) := by
  refine .get fun s hsame => ?_
  split
  next => exact .pure _
  next =>
    refine .ite (fun _ => .pure _) fun _ => ?_
    cases v with
    | addr o => exact .rejectTooComplex
    | of o =>
      cases o with
      -- A literal is loaded into a work register, if it cannot be an immediate.
      | const c =>
        refine .ite (fun _ => .pure _) (fun _ => ?_)
        intro s m hsame hagrees hmatched
        simp only [Tracks, after_bind, after_emit, after_record, after_pure]
        refine after_takeWork_load (x := lowByte c) hagrees hmatched (fun _ hr => .mvi hr _) ?_
        exact (low_ofInt c).symm.trans (congrArg Side.low.part (hagrees.literal c).symm)
      -- For a variable HL is vacated and made to point at it.
      | var name =>
        have hpinned : .var name ∈ s₀.pinned := hv.resolve_right fun h => by cases h
        intro s m hsame hagrees hmatched
        refine (tracks_vacateHL_none hagrees hmatched).bind fun _ s' m' hleads _ => ?_
        simp only [Tracks, after_bind, after_emit, after_record, after_pure]
        have hv' : .var name ∈ s'.pinned := by rwa [hleads.frame.pinned, hsame.pinned]
        exact ⟨_, leads_setPair hleads.agrees hleads.matched (p := .h) rfl
          (.single (hleads.agrees.step_lxi hv' rfl .h)), trivial⟩
      | temp id => exact .rejectTooComplex

/-- Wherever the step is taken in the middle of this triple, the machine follows the record if the
step ends as `C` says. -/
def FollowsTo (ρ : Valuation) (s₀ : State) (x : Selecting α) (C : α → State → Prop) : Prop :=
  ∀ s m, SameTriple s₀ s → Agrees ρ s m → s.regs.Matched →
    After x s fun a s' => C a s' → ∃ m', Leads ρ s m s' m'

namespace FollowsTo

variable {C : α → State → Prop}

/-- If the machine follows in any case, it also follows under a condition. -/
theorem of_follows {x : Selecting α} (h : Follows ρ s₀ x) : FollowsTo ρ s₀ x C := by
  intro s m hsame hagrees hmatched
  refine After.mono (h s m hsame hagrees hmatched) ?_
  rintro a s' ⟨m', hleads, -⟩ _
  exact ⟨m', hleads⟩

/-- Only the last step depends on the condition, which is about the outcome. -/
theorem bind {x : Selecting β} {f : β → Selecting α} (hx : Follows ρ s₀ x)
    (hf : ∀ b, FollowsTo ρ s₀ (f b) C) : FollowsTo ρ s₀ (x >>= f) C := by
  intro s m hsame hagrees hmatched
  rw [after_bind]
  refine After.mono (hx s m hsame hagrees hmatched) ?_
  rintro b s' ⟨m', hleads, -⟩
  refine (hf b s' m' (hsame.of_leads hleads) hleads.agrees hleads.matched).mono ?_
  intro a s'' hf hC
  obtain ⟨m'', hleads'⟩ := hf hC
  exact ⟨m'', hleads.trans hleads'⟩

theorem ite {c : Prop} [Decidable c] {x y : Selecting α} (hx : c → FollowsTo ρ s₀ x C)
    (hy : ¬c → FollowsTo ρ s₀ y C) : FollowsTo ρ s₀ (if c then x else y) C := by
  split
  next hc => exact hx hc
  next hc => exact hy hc

end FollowsTo

/-- Copying `c` for a count does not make `c` hold the count. -/
theorem after_keepByte_of_ne (hne : s.regs.get .c ≠ .scalar v) :
    After (keepByte v .c [.c] true) s fun _ s' => s'.regs.get .c ≠ .scalar v := by
  simp only [keepByte, after_bind, after_get]
  refine after_ite (fun _ => ?_) fun _ => (after_pure _).mpr hne
  rw [after_bind]
  refine after_takeWork.mono ?_
  rintro r s' ⟨⟨hwork, hexclude, -⟩, rfl⟩
  have hr : r ≠ .m := by
    rintro rfl
    simp at hwork
  have hrc : Reg.c ≠ r := fun h => hexclude (h ▸ List.mem_singleton_self _)
  rw [after_bind, after_emit, after_record]
  show ((s.regs.clear r).bind r v).get .c ≠ .scalar v
  rw [RegisterFile.bind, if_neg hr, get_put_of_ne hr (by decide) hrc, get_clear hr (by decide)]
  split
  · exact fun h => by cases h
  · rw [get_clear hr (by decide)]
    split
    · exact fun h => by cases h
    · exact hne

/-- A count is kept, and then read in `c`. -/
theorem followsTo_keepByte {o : Operation} (hreads : (Location.reg .c, v) ∈ o.reads) :
    FollowsTo ρ s₀ (do keepByte v .c [.c] true; return o) fun o s' => o.isOffered s' = true := by
  intro s m _ hagrees hmatched
  simp only [after_bind, after_pure]
  by_cases hc : s.regs.get .c = .scalar v
  · refine After.mono (tracks_keepByte hagrees hmatched (by decide) hc) ?_
    rintro _ s' ⟨m', hleads, -⟩ _
    exact ⟨m', hleads⟩
  · refine (after_keepByte_of_ne hc).mono fun _ s' hne hoffered => absurd ?_ hne
    have hoffers := List.all_eq_true.mp hoffered _ hreads
    simpa [State.offers, Location.isMemory, State.has] using hoffers

/-! ## Operations -/

section Place

variable {t : Triple}

/-- What placing the operands of a triple relies on: they are not evicted meanwhile. -/
structure Placeable (s₀ : State) (t : Triple) : Prop where
  pins : s₀.PinsAddresses
  lhs : .of t.lhs ∈ s₀.pinned
  rhs : ∀ rhs, t.rhs = some rhs → .of rhs ∈ s₀.pinned

variable (h : Placeable s₀ t)

include h

/-- Both operands of a byte operation are loaded: the second is prepared, the first goes to the
accumulator, the second is located, and the accumulator is saved if it is needed again. -/
theorem follows_loadBytes {primary secondary : Value} {f : Source → Selecting Operation}
    (hprimary : primary ∈ s₀.pinned) (hsecondary : secondary ∈ s₀.pinned ∨ secondary.isConst = true)
    (hf : ∀ source, Follows ρ s₀ (f source)) :
    Follows ρ s₀ (do
      prepareSecond secondary
      loadAccumulator primary
      let source ← secondOperand secondary
      saveAccumulator true
      f source) := by
  refine .bind (follows_prepareSecond h.pins hsecondary) fun _ => ?_
  refine .bind (follows_loadAccumulator h.pins hprimary) fun _ => ?_
  refine .bind (follows_secondOperand hsecondary) fun source => ?_
  exact .bind (follows_saveAccumulator _) fun _ => hf source

/-- The operands of a byte operation are placed, in whichever order the selector chooses. A
comparison may have its literal raised by one, and then the second operand is that literal. -/
theorem follows_placeByteBinary : Follows ρ s₀ (placeByteBinary t) := by
  unfold placeByteBinary
  cases hr : t.rhs with
  | none => exact .rejectIllegal _
  | some rhs =>
    -- Both operands are pinned, so it does not matter which of them comes first.
    have heither (swapped : Bool) : .of (if swapped then rhs else t.lhs) ∈ s₀.pinned ∧
        .of (if swapped then t.lhs else rhs) ∈ s₀.pinned := by
      cases swapped
      · exact ⟨h.lhs, h.rhs rhs hr⟩
      · exact ⟨h.rhs rhs hr, h.lhs⟩
    refine .get fun s _ => ?_
    cases hrelation : t.op.relation? with
    | some relation =>
      dsimp only
      cases orient relation (t.op.isSwappable && prefersSwap s (.of t.lhs) (.of rhs)) t.lhs rhs with
      | mk swapped raised =>
        obtain ⟨hprimary, hsecondary⟩ := heither swapped
        cases raised with
        | some k => exact follows_loadBytes h hprimary (.inr rfl) fun source => .pure _
        | none => exact follows_loadBytes h hprimary (.inl hsecondary) fun source => .pure _
    | none =>
      dsimp only
      obtain ⟨hprimary, hsecondary⟩ :=
        heither (t.op.isSwappable && prefersSwap s (.of t.lhs) (.of rhs))
      refine follows_loadBytes h hprimary (.inl hsecondary) fun source => ?_
      split
      · exact .pure _
      · exact .rejectIllegal _
      · exact .ite (fun _ => .pure _) fun _ => .pure _

/-- The operands of a byte shift are placed. The count is kept before it is used up, and this is the
one place where the outcome has to be looked at. -/
theorem followsTo_placeByteShift :
    FollowsTo ρ s₀ (placeByteShift t) fun o s' => o.isOffered s' = true := by
  unfold placeByteShift
  dsimp only
  split
  next => exact .of_follows (.rejectIllegal _)
  next => exact .of_follows (.bind (follows_loadForChange h.pins h.lhs) fun _ => .pure _)
  next => exact .of_follows (.bind (follows_loadForChange h.pins h.lhs) fun _ => .pure _)
  next count _ _ hr =>
    refine .bind (follows_loadReg h.pins (h.rhs count hr)) fun _ => ?_
    refine .bind (follows_loadForChange h.pins h.lhs) fun _ => ?_
    exact followsTo_keepByte (by simp [Operation.reads])

/-- The operands of an operation on bytes are placed, by cases on the operator. -/
theorem followsTo_placeByte :
    FollowsTo ρ s₀ (placeByte t) fun o s' => o.isOffered s' = true := by
  unfold placeByte
  split
  · exact .of_follows (.bind (follows_loadForChange h.pins h.lhs) fun _ => .pure _)
  · exact followsTo_placeByteShift h
  · exact followsTo_placeByteShift h
  · exact .of_follows (follows_placeByteBinary h)

end Place

/-- Two words are placed, one in HL and the other in DE if that is asked for, or in any pair. -/
theorem follows_placeOperands {fixed : Option Pair} (hfixed : ∀ p, fixed = some p → p = .d)
    (hpins : s₀.PinsAddresses) (hx : x ∈ s₀.pinned) (hy : y ∈ s₀.pinned) :
    Follows ρ s₀ (placeOperands x y fixed) := by
  refine .get fun s _ => ?_
  extract_lets held p
  have hp : p = .d ∨ p = .b := pairFor_eq s hfixed
  clear_value p
  have hload : Follows ρ s₀ (do loadHL x; return p) :=
    .bind (follows_loadHL hpins hx) fun _ => .pure _
  have hloads : Follows ρ s₀ (do loadPair p y; loadHL x; return p) :=
    .bind (follows_loadPair hpins hp hy) fun _ => hload
  refine .ite (fun _ => ?_) (fun _ => .ite (fun _ => ?_) (fun _ => .ite (fun _ => ?_) fun _ => ?_))
  · refine .bind (follows_loadHL hpins hx) fun _ => .bind (follows_vacatePair hp) fun _ => ?_
    exact .bind (follows_copyPair _ _) fun _ => .pure _
  · refine .bind (follows_loadPair hpins hp hy) fun _ => .get fun s _ => ?_
    exact .ite (fun _ => hload) fun _ => .pure _
  · exact .ite (fun _ => .bind follows_exchange fun _ => hload) fun _ => hloads
  · exact hloads

/-- The operands of a difference are placed in HL and DE. -/
theorem follows_placeDifference (hpins : s₀.PinsAddresses) (hx : x ∈ s₀.pinned)
    (hy : y ∈ s₀.pinned) : Follows ρ s₀ (placeDifference x y) := by
  refine .bind (follows_placeOperands (by simp) hpins hx hy) fun _ => ?_
  exact .bind follows_preserveHL fun _ => follows_saveAccumulator _

/-- The operands of a sum are placed. A value that is added to itself is loaded only once, into
HL. -/
theorem follows_placeWordAdd (hpins : s₀.PinsAddresses) (hx : x ∈ s₀.pinned) (hy : y ∈ s₀.pinned) :
    Follows ρ s₀ (placeWordAdd x y) := by
  refine .ite (fun _ => .bind (follows_loadHLForChange hpins hx) fun _ => .pure _) (fun _ => ?_)
  refine .bind (follows_placeOperands (by simp) hpins hx hy) fun _ => ?_
  exact .bind follows_preserveHL fun _ => .pure _

/-- The operands of a bitwise operation are placed, in HL and another pair. A literal stays in the
instructions, and then only HL is loaded. -/
theorem follows_placeWordBitwise {op : AluOp} (hpins : s₀.PinsAddresses) (hx : x ∈ s₀.pinned)
    (hy : y ∈ s₀.pinned) : Follows ρ s₀ (placeWordBitwise op x y) := by
  unfold placeWordBitwise
  split
  · refine .bind (follows_loadHLForChange hpins hx) fun _ => ?_
    exact .bind (follows_saveAccumulator _) fun _ => .pure _
  · refine .bind (follows_placeOperands (by simp) hpins hx hy) fun p => ?_
    split
    · exact .rejectTooComplex
    · refine .bind follows_preserveHL fun _ => .bind (follows_saveAccumulator _) fun _ => .pure _

section Place

variable {t : Triple} (h : Placeable s₀ t)

include h

/-- The right operand is pinned, if there is one, and otherwise the triple is illegal. -/
theorem follows_rightOperand {f : Value → Selecting Operation}
    (hf : ∀ y ∈ s₀.pinned, Follows ρ s₀ (f y)) : Follows ρ s₀ (rightOperand t >>= f) := by
  unfold rightOperand
  split
  next rhs hr =>
    rw [pure_bind]
    exact hf _ (h.rhs rhs hr)
  next =>
    show Follows ρ s₀ (rejectIllegal t _ : Selecting Operation)
    exact .rejectIllegal _

/-- The operands of a commutative operator are both pinned, in either order. -/
theorem follows_commuteOperands {f : Value × Value → Selecting Operation}
    (hf : ∀ x ∈ s₀.pinned, ∀ y ∈ s₀.pinned, Follows ρ s₀ (f (x, y))) :
    Follows ρ s₀ (commuteOperands t >>= f) := by
  simp only [commuteOperands, bind_assoc, pure_bind]
  refine follows_rightOperand h fun y hy => .get fun s _ => ?_
  split
  · exact hf y hy _ h.lhs
  · exact hf _ h.lhs y hy

/-- The operands of a shift of a word are placed: the word in HL, and the count in `c` unless the
shift is done by doubling. The count is kept before it is used up. -/
theorem followsTo_placeWordShift :
    FollowsTo ρ s₀ (placeWordShift t) fun o s' => o.isOffered s' = true := by
  have hcall {count : Operand} (hr : t.rhs = some count) : FollowsTo ρ s₀ (do
      loadReg .c (.of count)
      loadHLForChange (.of t.lhs)
      if (Operation.shiftWordRoutine (t.op = .shl)).clobbers.contains .a then
        saveAccumulator false
      keepByte (.of count) .c [.c] true
      return Operation.shiftWord (t.op = .shl) (.of t.lhs) (.of count)) fun o s' =>
        o.isOffered s' = true := by
    have hfinish : FollowsTo ρ s₀ (do
        keepByte (.of count) .c [.c] true
        return Operation.shiftWord (t.op = .shl) (.of t.lhs) (.of count)) _ :=
      followsTo_keepByte (by simp [Operation.reads])
    refine .bind (follows_loadReg h.pins (h.rhs count hr)) fun _ => ?_
    refine .bind (follows_loadHLForChange h.pins h.lhs) fun _ => ?_
    exact .ite (fun _ => .bind (follows_saveAccumulator _) fun _ => hfinish) fun _ => hfinish
  unfold placeWordShift
  cases hr : t.rhs with
  | none => exact .of_follows (.rejectIllegal _)
  | some count =>
    dsimp only
    split
    · exact .of_follows (.bind (follows_loadHLForChange h.pins h.lhs) fun _ => .pure _)
    · exact hcall hr

/-- The operands of a comparison of words are placed as for a difference, in the order that the
relation asks for. -/
theorem follows_placeWordCompare (hy : y ∈ s₀.pinned) :
    Follows ρ s₀ (placeWordCompare t (.of t.lhs) y) := by
  have hplace (swapped : Bool) : Follows ρ s₀ (placeDifference (if swapped then y else .of t.lhs)
      (if swapped then .of t.lhs else y)) := by
    cases swapped
    · exact follows_placeDifference h.pins h.lhs hy
    · exact follows_placeDifference h.pins hy h.lhs
  unfold placeWordCompare
  split
  · exact .rejectIllegal _
  · exact .get fun s _ => .bind (hplace _) fun _ => .pure _

/-- The operands of an operation on words are placed, by cases on the operator. -/
theorem followsTo_placeWord :
    FollowsTo ρ s₀ (placeWord t) fun o s' => o.isOffered s' = true := by
  unfold placeWord
  dsimp only
  split
  · refine .of_follows (.bind (follows_loadHLForChange h.pins h.lhs) fun _ => ?_)
    exact .bind (follows_saveAccumulator _) fun _ => .pure _
  · exact followsTo_placeWordShift h
  · exact followsTo_placeWordShift h
  · exact .of_follows (follows_commuteOperands h fun x hx y hy => follows_placeWordAdd h.pins hx hy)
  · exact .of_follows (follows_commuteOperands h fun x hx y hy =>
      follows_placeWordBitwise h.pins hx hy)
  · exact .of_follows (follows_commuteOperands h fun x hx y hy =>
      follows_placeWordBitwise h.pins hx hy)
  · exact .of_follows (follows_commuteOperands h fun x hx y hy =>
      follows_placeWordBitwise h.pins hx hy)
  · refine .of_follows (follows_rightOperand h fun y hy => ?_)
    exact .bind (follows_placeDifference h.pins h.lhs hy) fun _ => .pure _
  · exact .of_follows (follows_rightOperand h fun y hy => follows_placeWordCompare h hy)

/-- While the operands of a triple are placed, the machine follows the record, if they end up where
they are read. -/
theorem followsTo_place : FollowsTo ρ s₀ (place t) fun o s' => o.isOffered s' = true := by
  unfold place
  split
  · exact followsTo_placeByte h
  · exact followsTo_placeWord h

end Place

end Accumulator.Select
