import Accumulator.Proofs.Select.Performing
import Accumulator.Proofs.Select.Truthful

/-!
# Loaded pairs hold the word

A word in a pair is recorded by both halves. A byte in a pair is recorded in the low register, with
the literal zero in the high one, and it is the zero that makes the difference here: it is a value
like any other, so unless the current triple reads it, its register may be taken while the byte is
copied from one pair to another (`RisksZero`). A literal below zero is a byte too, and it is not
what the pair holds with a zero above it. Apart from these two cases a pair that is loaded holds the
word of its value (`pair_of_load`); both cases do occur (`loadHL_takes_zero`,
`isInPair_of_negative`).
-/

namespace Accumulator.Select

open RegisterFile

variable {ρ : Valuation} {s s' : State} {m m' : Machine} {v : Value} {p : Pair} {high low : Reg}

/-! ## What is recorded of a pair -/

/-- A pair has a literal below zero with a zero above it, and that is another word. -/
def State.MistakesSign (s : State) (p : Pair) (v : Value) : Prop :=
  isNegative v = true ∧ s.regs.pairMatch? p v = some .extended

theorem State.not_mistakesSign (h : isNegative v = false) : ¬s.MistakesSign p v := by
  rintro ⟨hneg, -⟩
  rw [h] at hneg
  cases hneg

theorem isNegative_of_ne_const {o : Operand} (h : ∀ c, o = .const c → False) :
    isNegative (.of o) = false := by
  cases o with
  | const c => exact (h c rfl).elim
  | var _ | temp _ => rfl

/-- Any other record of the value is good enough. -/
theorem has_of_pairMatch? {k : PairMatch} (hmatch : s.regs.pairMatch? p v = some k)
    (hk : k = .full ∨ s.isByte v = true) (hsign : ¬s.MistakesSign p v) :
    s.has (.pair p) v = true := by
  cases k with
  | full => simp [State.has, hmatch]
  | extended =>
    obtain hk | hbyte := hk
    · cases hk
    · have hpos : isNegative v = false := by
        rw [← Bool.not_eq_true]
        exact fun hneg => hsign ⟨hneg, hmatch⟩
      simp [State.has, hmatch, hbyte, hpos]

/-- A pair that is recorded with a word has that word. -/
theorem has_of_pairValue? (h : s.regs.pairValue? p = some v) : s.has (.pair p) v = true := by
  obtain ⟨high, low, hp, hhigh, hlow⟩ := halves?_of_pairValue? h
  simp [State.has, pairMatch?, hp, hhigh, hlow]

/-- A pair that counts as holding a value has it, unless the sign of a literal is mistaken. -/
theorem has_of_isInPair (hsign : ¬s.MistakesSign p v)
    (h : s.isInPair v p = true) : s.has (.pair p) v = true := by
  unfold State.isInPair at h
  split at h
  next hmatch => exact has_of_pairMatch? hmatch (.inl rfl) hsign
  next hmatch => exact has_of_pairMatch? hmatch (.inr h) hsign
  next => cases h

/-- What a pair holds goes with the records of its registers. -/
theorem has_of_get {q : Pair} {qh ql : Reg} (hframe : Frame s m s' m')
    (hp : p.halves? = some (high, low)) (hq : q.halves? = some (qh, ql))
    (hhigh : s'.regs.get qh = s.regs.get high) (hlow : s'.regs.get ql = s.regs.get low)
    (h : s.has (.pair p) v = true) : s'.has (.pair q) v = true := by
  simpa only [State.has, pairMatch?, hp, hq, hhigh, hlow, hframe.isByte] using h

/-- A byte that was put below a zero is the word of the pair, if it has no sign. -/
theorem has_bindExtended {rf : RegisterFile} (hmatched : rf.Matched)
    (hp : p.halves? = some (high, low)) (hregs : s.regs = rf.bindExtended p v)
    (hbyte : s.isByte v = true) (hpos : isNegative v = false) : s.has (.pair p) v = true := by
  have hne := Pair.halves?_ne hp
  have hhl := Pair.halves?_high_ne_low hp hp
  have hlow : s.regs.get low = .scalar v := by
    simp only [hregs, RegisterFile.bindExtended, hp]
    exact get_bind_self hne.2.1
  have hhigh : s.regs.get high = .scalar (.const 0) := by
    simp only [hregs, RegisterFile.bindExtended, hp]
    -- The zero is bound first, so neither register has half of a word when the byte is.
    have hnot : high ∉ (rf.bind high (.const 0)).lost low := by
      rw [mem_lost_iff]
      rintro (heq | ⟨hhalf, q, hhq, hlq⟩)
      · exact hhl heq
      · rw [← (hmatched.bind (r := high)).isHalf_eq hhq hlq, get_bind_self hne.1] at hhalf
        cases hhalf
    rw [get_bind_of_not_mem hne.1 hnot, get_bind_self hne.1]
  have hmatch : s.regs.pairMatch? p v = some .extended := by
    simp [pairMatch?, hp, hhigh, hlow]
  exact has_of_pairMatch? hmatch (.inr hbyte) (s.not_mistakesSign hpos)

/-! ## Loading -/

/-- The byte has to be copied from DE or BC, and the zero above it is no value of the current
triple, so that it may have to give way. -/
def State.RisksZero (s : State) (target : Pair) (v : Value) : Prop :=
  s.regs.findWide? v = some (if target = .b then .d else .b, .extended) ∧ .const 0 ∉ s.pinned

/-- What a pair holds stays there while room is made elsewhere, if it cannot give way. -/
theorem Keeps.has {lost kept : List Reg} {k : PairMatch} (h : Keeps lost kept s m s' m')
    (hframe : Frame s m s' m') (hv : v ∈ s.pinned) (hp : p.halves? = some (high, low))
    (hhigh : high ∉ lost) (hlow : low ∉ lost) (hmatch : s.regs.pairMatch? p v = some k)
    (hzero : k = .extended → high ∈ kept ∨ .const 0 ∈ s.pinned)
    (hhas : s.has (.pair p) v = true) : s'.has (.pair p) v = true := by
  have hne := Pair.halves?_ne hp
  have hrecord : ((s.regs.get low).value? = some v) ∧
      (high ∈ kept ∨ ∃ u ∈ s.pinned, (s.regs.get high).value? = some u) := by
    simp only [pairMatch?, hp] at hmatch
    split at hmatch
    next hfull =>
      exact ⟨by rw [hfull.2]; rfl, .inr ⟨v, hv, by rw [hfull.1]; rfl⟩⟩
    next =>
      split at hmatch
      next hextended =>
        cases hmatch
        refine ⟨by rw [hextended.2]; rfl, (hzero rfl).imp_right fun hpinned => ?_⟩
        exact ⟨.const 0, hpinned, by rw [hextended.1]; rfl⟩
      next => cases hmatch
  exact has_of_get hframe hp hp (h.record high hne.1 hhigh hrecord.2)
    (h.record low hne.2.1 hlow (.inr ⟨v, hv, hrecord.1⟩)) hhas

/-- What the answer of a step that loads a pair means: it is loaded, or nothing was done. -/
def LoadsWord (p : Pair) (v : Value) (s : State) (m : Machine) : Bool → State → Machine → Prop
  | true, s', _ => s'.has (.pair p) v = true
  | false, s', m' => s' = s ∧ m' = m

/-- HL is vacated and then loaded by an instruction. -/
theorem loadsWord_fillHL {i : Instr} (h : Agrees ρ s m) (hmatched : s.regs.Matched)
    (hstep : ∀ {s' m'}, Leads ρ s m s' m' →
      Machine.Steps (Provided ρ s' m') i m' (m'.setPair .h (ρ v))) :
    Tracks ρ (do
      let _ ← vacateHL none
      emit i
      record (·.bindPair .h v)
      return true) s m fun answer s' m' =>
        LoadsWord .h v s m answer s' m' ∧ (answer = false → isNegative v = false) := by
  refine (tracks_vacateHL_none h hmatched).bind fun _ s' m' hleads _ => ?_
  unfold Tracks
  simp only [after_bind, after_emit, after_record, after_pure]
  exact ⟨_, leads_setPair hleads.agrees hleads.matched (p := .h) rfl (.single (hstep hleads)),
    has_of_pairValue? ((pairValue?_eq_some rfl).mpr (get_bindPair rfl)), by simp⟩

/-- A byte in some other register is extended into a pair that was vacated since. -/
theorem loadsWord_extend {r : Reg} {lost kept : List Reg} {α : Type} {x : Selecting α}
    (hv : v ∈ s.pinned) (hpos : isNegative v = false)
    (hbyte : s.isByte v = true) (hp : p.halves? = some (high, low)) (hr : r ≠ .m)
    (hscalar : s.regs.get r = .scalar v) (hlost : r ∉ lost)
    (hx : Tracks ρ x s m fun _ s' m' => Keeps lost kept s m s' m') :
    Tracks ρ (do
      let _ ← x
      emitAll [.mov low r, .mvi high 0]
      record (·.bindExtended p v)) s m fun _ s' _ => s'.has (.pair p) v = true := by
  have hrecord : After (do
      let _ ← x
      emitAll [.mov low r, .mvi high 0]
      record (·.bindExtended p v)) s fun _ s' =>
        ∃ rf : RegisterFile, rf.Matched ∧ s'.regs = rf.bindExtended p v := by
    refine (after_bind _ _).mpr (After.mono hx ?_)
    rintro _ s' ⟨m', hleads, -⟩
    simp only [after_bind, after_emitAll, after_record]
    exact ⟨s'.regs, hleads.matched, rfl⟩
  refine After.mono (After.and (tracks_extend hv hbyte hp hr hscalar hlost hx) hrecord) ?_
  rintro _ s' ⟨⟨m', hleads, -⟩, rf, hrf, hregs⟩
  have hwidth := hleads.frame.isByte v
  exact ⟨m', hleads, has_bindExtended hrf hp hregs (hwidth.trans hbyte) hpos⟩

/-- The registers that can be relied on while DE or BC is vacated for a value of the current triple
that another pair has. -/
theorem untouched_source {q : Pair} {k : PairMatch} {qh ql : Reg} (hv : v ∈ s.pinned)
    (hpair : p = .d ∨ p = .b) (hq : q.halves? = some (qh, ql))
    (hfind : s.regs.findWide? v = some (q, k)) (hne : q ≠ p) (hzero : ¬s.RisksZero p v) :
    ∃ kept : List Reg, (∀ r ∈ kept, r ∈ [Reg.h, .l]) ∧
      (p = .d → s.isFree .h = true → kept = []) ∧
      (k = .extended → qh ∈ kept ∨ .const 0 ∈ s.pinned) := by
  by_cases hqh : q = .h
  · subst hqh
    cases hq
    refine ⟨[.h, .l], fun _ hr => hr, fun _ hfree => ?_, fun _ => .inl List.mem_cons_self⟩
    -- L has the low byte of the value, or all of it, and HL is not free then.
    have hl : (s.regs.get .l).value? = some v := by
      obtain ⟨high, low, hhalves, hheld⟩ := holds_of_findWide? hfind
      cases hhalves
      obtain hfull | ⟨-, hscalar⟩ := hheld
      · rw [((pairValue?_eq_some rfl).mp hfull).2]
        rfl
      · rw [hscalar]
        rfl
    exact absurd hl ((spares_of_isFree rfl hfree).2 v hv)
  · refine ⟨[], by simp, fun _ _ => rfl, ?_⟩
    rintro rfl
    have hother : q = if p = .b then .d else .b := by
      obtain rfl | rfl := hpair <;> cases q <;> cases hq <;>
        first | rfl | exact absurd rfl hqh | exact absurd rfl hne
    subst hother
    by_contra hnot
    exact hzero ⟨hfind, fun hmem => hnot (.inr hmem)⟩

/-- DE or BC is vacated and then loaded by an instruction. -/
theorem loadsWord_fillPair {i : Instr} (h : Agrees ρ s m) (hmatched : s.regs.Matched)
    (hp : p.halves? = some (high, low))
    (hstep : ∀ {s' m'}, Leads ρ s m s' m' →
      Machine.Steps (Provided ρ s' m') i m' (m'.setPair p (ρ v))) :
    Tracks ρ (do
      vacatePair p
      emit i
      record (·.bindPair p v)) s m fun _ s' _ => s'.has (.pair p) v = true := by
  refine (tracks_vacatePair h hmatched hp).bind fun _ s' m' hleads _ => ?_
  unfold Tracks
  simp only [after_bind, after_emit, after_record]
  exact ⟨_, leads_setPair hleads.agrees hleads.matched hp (.single (hstep hleads)),
    has_of_pairValue? ((pairValue?_eq_some hp).mpr (get_bindPair hp))⟩

section Loading

variable (h : Agrees ρ s m) (hmatched : s.regs.Matched) (hv : v ∈ s.pinned)
  (hsign : ∀ q, ¬s.MistakesSign q v)

include h hmatched hv hsign

/-- A value that some pair holds, or that is saved, is brought to HL: by an exchange from DE, by a
copy from BC, or by a pop. The copy is the case where a zero above a byte is at risk, as HL is
vacated before. -/
theorem loadsWord_loadHLHeld (hzero : ¬s.RisksZero .h v) :
    Tracks ρ (loadHLHeld v) s m (LoadsWord .h v s m) := by
  refine tracks_get ?_
  -- A saved value is popped, or it comes to HL by the exchange that sets HL aside.
  have hsaved : Tracks ρ (if s.isSaved v = true then do
        if ← vacateHL (some v) then
          return true
        popSpill .h
        return true
      else
        return false) s m (LoadsWord .h v s m) := by
    refine after_ite (fun hsaved => ?_) (fun _ => tracks_pure h hmatched ⟨rfl, rfl⟩)
    obtain ⟨slot, hslot, rfl⟩ := spill_of_isSaved hsaved
    refine (tracks_vacateHL _ h hmatched).bind fun answer s₁ m₁ hleads₁ hanswer => ?_
    cases answer with
    | true =>
      obtain ⟨u, hu, hpair⟩ := hanswer
      cases hu
      exact tracks_pure hleads₁.agrees hleads₁.matched (has_of_pairValue? hpair)
    | false =>
      refine (tracks_popSpill hleads₁.agrees hleads₁.matched rfl (hanswer.1.slot slot hslot)).bind
        fun _ s₂ m₂ hleads₂ hpair => ?_
      exact tracks_pure hleads₂.agrees hleads₂.matched (has_of_pairValue? hpair)
  dsimp only
  split
  next k hfind =>
    refine after_ite (fun hk => ?_) (fun _ => hsaved)
    exact tracks_pure h hmatched (has_of_pairMatch? (pairMatch?_of_findWide? hfind) hk (hsign _))
  next k hfind =>
    refine after_ite (fun hk => ?_) (fun _ => hsaved)
    refine (tracks_exchange h hmatched).bind fun _ s' m' hleads hmoved => ?_
    refine tracks_pure hleads.agrees hleads.matched ?_
    exact has_of_get hleads.frame (p := .d) rfl rfl hmoved.2.1 hmoved.2.2
      (has_of_pairMatch? (pairMatch?_of_findWide? hfind) hk (hsign _))
  next k hfind =>
    refine after_ite (fun hk => ?_) (fun _ => hsaved)
    have hmatch := pairMatch?_of_findWide? hfind
    refine (tracks_vacateHL _ h hmatched).bind fun answer s₁ m₁ hleads₁ hanswer => ?_
    cases answer with
    | true =>
      obtain ⟨u, hu, hpair⟩ := hanswer
      cases hu
      exact tracks_pure hleads₁.agrees hleads₁.matched (has_of_pairValue? hpair)
    | false =>
      -- BC keeps its record while HL is vacated. A byte there also needs its zero, which stays
      -- because it is a value of the current triple: otherwise it would be at risk.
      have hhas := hanswer.1.has hleads₁.frame hv (p := .b) rfl (by decide) (by decide) hmatch
        (fun hextended => .inr (by
          subst hextended
          by_contra hnot
          exact hzero ⟨hfind, hnot⟩))
        (has_of_pairMatch? hmatch hk (hsign _))
      refine (tracks_copyPair hleads₁.agrees hleads₁.matched rfl rfl).bind
        fun _ s₂ m₂ hleads₂ hcopied => ?_
      refine tracks_pure hleads₂.agrees hleads₂.matched ?_
      exact has_of_get hleads₂.frame (p := .b) rfl rfl hcopied.2.1 hcopied.2.2 hhas
  next => exact hsaved

/-- HL is loaded with what is held, with a literal, with a word variable or with an address.
Literals are always loaded here, so a byte that has to be extended afterwards has no sign. -/
theorem loadsWord_loadHLDirect (hzero : ¬s.RisksZero .h v) :
    Tracks ρ (loadHLDirect v) s m fun answer s' m' =>
      LoadsWord .h v s m answer s' m' ∧ (answer = false → isNegative v = false) := by
  refine (loadsWord_loadHLHeld h hmatched hv hsign hzero).bind fun answer s' m' hleads hanswer => ?_
  cases answer with
  | true => exact tracks_pure hleads.agrees hleads.matched ⟨hanswer, by simp⟩
  | false =>
    obtain ⟨rfl, rfl⟩ := hanswer
    refine tracks_get ?_
    split
    -- Literals, variables and addresses of variables; all others are left to the caller.
    next c => exact loadsWord_fillHL h hmatched fun hleads' => hleads'.agrees.step_lxi_num .h c
    next name =>
      refine after_ite (fun _ => tracks_pure h hmatched ⟨⟨rfl, rfl⟩, fun _ => rfl⟩)
        (fun hword => ?_)
      refine loadsWord_fillHL h hmatched fun hleads' => ?_
      refine hleads'.agrees.step_lhld (by rwa [hleads'.frame.pinned]) rfl ?_
      rw [hleads'.frame.isByte]
      exact (Bool.not_eq_true _).mp hword
    next name =>
      refine loadsWord_fillHL h hmatched fun hleads' => ?_
      exact hleads'.agrees.step_lxi (by rwa [hleads'.frame.pinned]) rfl .h
    next hconst _ _ =>
      refine tracks_pure h hmatched ⟨⟨rfl, rfl⟩, fun _ => ?_⟩
      cases v with
      | of o => exact isNegative_of_ne_const fun c hc => hconst c (congrArg _ hc)
      | addr o => rfl

/-- HL is loaded with any value of the current triple, and has it afterwards. -/
theorem loadsWord_loadHL (hpins : s.PinsAddresses) (hzero : ¬s.RisksZero .h v) :
    Tracks ρ (loadHL v) s m fun _ s' _ => s'.has (.pair .h) v = true := by
  refine (loadsWord_loadHLDirect h hmatched hv hsign hzero).bind
    fun answer s' m' hleads hanswer => ?_
  obtain ⟨hanswer, hpos⟩ := hanswer
  cases answer with
  | true => exact tracks_pure hleads.agrees hleads.matched hanswer
  | false =>
    obtain ⟨rfl, rfl⟩ := hanswer
    cases v with
    | addr o => exact after_rejectTooComplex
    | of o =>
      refine tracks_get (after_ite (fun hbyte => ?_) (fun _ => after_rejectTooComplex))
      refine (tracks_locateByte h hmatched hpins hv hbyte (by decide)).bind
        fun r s' m' hleads hlocated => ?_
      have hwidth := hleads.frame.isByte (.of o)
      exact loadsWord_extend (by rwa [hleads.frame.pinned]) (hpos rfl) (hwidth.trans hbyte)
        (p := .h) rfl hlocated.1 hlocated.2.2 hlocated.2.1
        ((tracks_vacateHL_none hleads.agrees hleads.matched).mono
          fun _ _ _ _ hvacated => hvacated.1)

/-- A value that some pair holds, or that is saved, is brought to DE or BC. -/
theorem loadsWord_loadPairHeld (hpair : p = .d ∨ p = .b) (hp : p.halves? = some (high, low))
    (hzero : ¬s.RisksZero p v) : Tracks ρ (loadPairHeld p v) s m (LoadsWord p v s m) := by
  refine tracks_get ?_
  have hsaved : Tracks ρ (if s.isSaved v = true then do
        vacatePair p
        popSpill p
        return true
      else
        return false) s m (LoadsWord p v s m) := by
    refine after_ite (fun hsaved => ?_) (fun _ => tracks_pure h hmatched ⟨rfl, rfl⟩)
    obtain ⟨slot, hslot, rfl⟩ := spill_of_isSaved hsaved
    refine (tracks_vacatePair h hmatched hp).bind fun _ s₁ m₁ hleads₁ hvacated => ?_
    refine (tracks_popSpill hleads₁.agrees hleads₁.matched hp (hvacated.1.slot slot hslot)).bind
      fun _ s₂ m₂ hleads₂ hpair => ?_
    exact tracks_pure hleads₂.agrees hleads₂.matched (has_of_pairValue? hpair)
  dsimp only
  split
  next q k hfind =>
    refine after_ite (fun hk => ?_) (fun _ => hsaved)
    have hmatch := pairMatch?_of_findWide? hfind
    have hhas := has_of_pairMatch? hmatch hk (hsign _)
    refine after_ite (fun hne => ?_) (fun heq => ?_)
    · obtain ⟨qh, ql, hq, -⟩ := holds_of_findWide? hfind
      have hdistinct : qh ∉ [high, low] ∧ ql ∉ [high, low] := by
        cases p <;> cases hp <;> cases q <;> cases hq <;> first | decide | exact absurd rfl hne
      -- HL gives way only if it has no value of the current triple, so a byte in it keeps its zero.
      obtain ⟨kept, hkept, hexchange, hsafe⟩ := untouched_source hv hpair hq hfind hne hzero
      refine (tracks_vacatePair_keeping h hmatched hp hkept hexchange).bind
        fun _ s₁ m₁ hleads₁ hvacated => ?_
      have hhas₁ := hvacated.1.has hleads₁.frame hv hq hdistinct.1 hdistinct.2 hmatch hsafe hhas
      refine (tracks_copyPair hleads₁.agrees hleads₁.matched hq hp).bind
        fun _ s₂ m₂ hleads₂ hcopied => ?_
      refine tracks_pure hleads₂.agrees hleads₂.matched ?_
      exact has_of_get hleads₂.frame hq hp hcopied.2.1 hcopied.2.2 hhas₁
    · obtain rfl : q = p := by simpa using heq
      exact tracks_pure h hmatched hhas
  next => exact hsaved

/-- DE or BC is loaded with any value of the current triple, and has it afterwards. A byte is
located and extended, and a word variable comes by way of HL. -/
theorem loadsWord_loadPair (hpins : s.PinsAddresses) (hpair : p = .d ∨ p = .b)
    (hzero : ¬s.RisksZero p v) :
    Tracks ρ (loadPair p v) s m fun _ s' _ => s'.has (.pair p) v = true := by
  obtain ⟨high, low, hhalves, hacc⟩ : ∃ high low, p.halves? = some (high, low) ∧
      .a ∉ [high, low] := by
    obtain rfl | rfl := hpair
    · exact ⟨.d, .e, rfl, by decide⟩
    · exact ⟨.b, .c, rfl, by decide⟩
  unfold loadPair
  simp only [hhalves]
  refine (loadsWord_loadPairHeld h hmatched hv hsign hpair hhalves hzero).bind
    fun answer s' m' hleads hanswer => ?_
  cases answer with
  | true => exact tracks_pure hleads.agrees hleads.matched hanswer
  | false =>
    obtain ⟨rfl, rfl⟩ := hanswer
    refine tracks_get ?_
    split
    next c =>
      exact loadsWord_fillPair h hmatched hhalves fun hleads' => hleads'.agrees.step_lxi_num p c
    next name =>
      refine loadsWord_fillPair h hmatched hhalves fun hleads' => ?_
      exact hleads'.agrees.step_lxi (by rwa [hleads'.frame.pinned]) rfl p
    next o hconst =>
      refine after_ite (fun hbyte => ?_) (fun hword => ?_)
      · -- The byte is located before the pair is vacated, in a register outside of it.
        refine (tracks_locateByte h hmatched hpins hv hbyte hacc).bind
          fun r s' m' hleads hlocated => ?_
        have hwidth := hleads.frame.isByte (.of o)
        exact loadsWord_extend (by rwa [hleads.frame.pinned]) (isNegative_of_ne_const hconst)
          (hwidth.trans hbyte) hhalves hlocated.1 hlocated.2.2 hlocated.2.1
          ((tracks_vacatePair hleads.agrees hleads.matched hhalves).mono
            fun _ _ _ _ hvacated => hvacated.1)
      · split
        next name =>
          refine (tracks_vacatePair h hmatched hhalves).bind fun _ s' m' hleads _ => ?_
          have hword' : s'.isByte (.var name) = false := by
            rw [hleads.frame.isByte]
            exact (Bool.not_eq_true _).mp hword
          refine (tracks_loadPairVariable hleads.agrees hleads.matched
            (by rwa [hleads.frame.pinned]) hword' hpair).mono fun _ s'' _ hleads' hcarries => ?_
          exact has_of_pairValue? (hcarries.full ((hleads'.frame.isByte _).trans hword'))
        next => exact after_rejectTooComplex
    next => exact after_rejectTooComplex

end Loading

/-- A pair that has a value, or that a value of the current triple is loaded into, holds the word of
it. There are two exceptions: a literal below zero that is recorded as a byte, and a byte whose zero
has to give way while the pair is vacated. -/
theorem pair_of_load {t : Triple} (hpinned : s.pinned = operandValues s.triples t)
    (hmatched : s.regs.Matched) (hagrees : Agrees ρ s m) (hv : v ∈ s.pinned) :
    (∀ q, ¬s.MistakesSign q v → s.isInPair v q = true → m.pair q = ρ v) ∧
      ((∀ q, ¬s.MistakesSign q v) →
        (¬s.RisksZero .h v → ∀ s', loadHL v s = .ok () s' →
          ∃ is m', s'.code = s.code ++ is ∧ is.foldlM Machine.step m = .ok m' ∧
            m'.pair .h = ρ v) ∧
        ∀ q, q = .d ∨ q = .b → ¬s.RisksZero q v → ∀ s', loadPair q v s = .ok () s' →
          ∃ is m', s'.code = s.code ++ is ∧ is.foldlM Machine.step m = .ok m' ∧
            m'.pair q = ρ v) := by
  have hpins := pinsAddresses_of_operandValues hpinned
  refine ⟨fun q hsign hin => pair_of_has hagrees (has_of_isInPair hsign hin),
    fun hsign => ⟨fun hzero s' hload => ?_, fun q hq hzero s' hload => ?_⟩⟩
  · obtain ⟨m', hleads, hhas⟩ := loadsWord_loadHL hagrees hmatched hv hsign hpins hzero _ _ hload
    obtain ⟨is, hcode, hrun⟩ := hleads.code
    exact ⟨is, m', hcode, hrun, pair_of_has hleads.agrees hhas⟩
  · obtain ⟨m', hleads, hhas⟩ :=
      loadsWord_loadPair hagrees hmatched hv hsign hpins hq hzero _ _ hload
    obtain ⟨is, hcode, hrun⟩ := hleads.code
    exact ⟨is, m', hcode, hrun, pair_of_has hleads.agrees hhas⟩

/-- A variable is loaded although every pair is taken. -/
theorem pair_of_load_crowded :
    ∃ is m', crowdedAfter.code = crowdedState.code ++ is ∧
      is.foldlM Machine.step crowdedMachine = .ok m' ∧ m'.pair .h = 0x1234 := by
  have hpinned : crowdedState.pinned =
      operandValues crowdedState.triples
        { id := 4, lhs := .var "w", op := .add, rhs := some (.const 4), width := .word } := rfl
  have hmatched : crowdedState.regs.Matched := by
    show Matched (((({} : RegisterFile).bindPair .h _).bindPair .d _).bindPair .b _)
    exact matched_empty.bindPair.bindPair.bindPair
  have hzero : ¬crowdedState.RisksZero .h (.var "w") := fun hrisk => by
    have hnone : crowdedState.regs.findWide? (.var "w") = none := rfl
    rw [State.RisksZero, hnone] at hrisk
    cases hrisk.1
  exact ((pair_of_load hpinned hmatched crowdedMachine_agrees List.mem_cons_self).2
    fun _ => State.not_mistakesSign rfl).1 hzero crowdedAfter rfl

/-! ## The two exceptions -/

/-- Result 1 and the literal -1 are to be added up. Either is in a pair, below a zero, and result 2
is in `h`. -/
def zeroedState : State where
  triples :=
    [{ id := 1, lhs := .const 5, op := .inv }, { id := 2, lhs := .const 6, op := .inv },
      { id := 3, lhs := .temp 1, op := .add, rhs := some (.const (-1)), width := .word },
      { id := 4, lhs := .temp 3, op := .xor, rhs := some (.temp 2), width := .word }]
  symbols := { toList := [], nodup := List.nodup_nil }
  regs :=
    ((({} : RegisterFile).bindExtended .b (.temp 1)).bindExtended .d
      (.const (-1))).bind .h (.temp 2)
  pos := 2
  pinned := [.temp 1, .const (-1)]

/-- The results are the bytes 250 and 249. -/
def zeroedValues : Valuation
  | .of (.const c) => BitVec.ofInt 16 c
  | .of (.var _) => 0
  | .of (.temp id) => if id = 1 then 0x00FA else if id = 2 then 0x00F9 else 0
  | .addr _ => 0

/-- A machine with these values. -/
def zeroedMachine : Machine where
  registers := { a := 0, b := 0, c := 0xFA, d := 0, e := 0xFF, h := 0xF9, l := 0 }

/-- The machine agrees with the record, so what goes wrong from here on is the loading itself. -/
theorem zeroedMachine_agrees : Agrees zeroedValues zeroedState zeroedMachine := by
  have hpinned : ∀ v ∈ zeroedState.pinned, v = .temp 1 ∨ v = .const (-1) := by
    intro v hv
    simpa [zeroedState] using hv
  have haddress : ∀ name a, zeroedMachine.addressOf? name ≠ some a := by
    intro name a ha
    cases ha
  refine { literal := fun _ => rfl, extended := ?_, declared := ?_,
           address := fun name a ha => absurd ha (haddress name a),
           variableLow := fun name a ha => absurd ha (haddress name a),
           variableHigh := fun name a ha => absurd ha (haddress name a),
           operand := ?_, registers := ?_, saved := ?_ }
  · intro o ho _
    cases o with
    | const c => cases ho
    | var name =>
      show Side.high.part 0 = 0
      decide
    | temp id =>
      show Side.high.part (if id = 1 then 0x00FA else if id = 2 then 0x00F9 else 0) = 0
      split
      · rfl
      · split <;> rfl
  · intro v hv name hname
    obtain rfl | rfl := hpinned v hv <;> cases hname
  · intro v hv hmemory
    obtain rfl | rfl := hpinned v hv <;> cases hmemory
  · intro r hr
    cases r <;> first | exact absurd rfl hr | rfl | trivial
  · intro slot hslot
    cases hslot

/-- DE counts as holding -1, and what it holds is 255. -/
theorem isInPair_of_negative :
    zeroedState.isInPair (.const (-1)) .d = true ∧ zeroedMachine.pair .d = 0x00FF ∧
      zeroedValues (.const (-1)) = 0xFFFF :=
  ⟨by decide, by decide, by decide⟩

/-- While result 1 is loaded into HL, result 2 takes the place of the zero above it. -/
theorem loadHL_takes_zero :
    zeroedValues (.temp 1) = 0x00FA ∧
      ∃ s' m', loadHL (.temp 1) zeroedState = .ok () s' ∧
        s'.code = [.mov .b .h, .mov .h .b, .mov .l .c] ∧
        s'.code.foldlM Machine.step zeroedMachine = .ok m' ∧ m'.pair .h = 0xF9FA :=
  ⟨by decide, _, _, rfl, rfl, rfl, by decide⟩

end Accumulator.Select
