import Accumulator.Proofs.Select.Light
import Accumulator.Proofs.Select.Truthful

/-!
# Making room loses no value

A register is overwritten only if its value is not needed, or if there is another copy of it. The
other copy has to survive as well, and that is shown here for whole steps (`Retains`): a value that
is needed and can be had before room is made can be had afterwards (`hasCopy_of_perform`).

There is one exception. If a pair holds two bytes, they are moved one after the other, and while
the second is moved the first still counts as being in the pair. So the register to which the first
was moved may be taken for the second (`vacateHL_loses_byte`).
-/

namespace Accumulator.Select

open RegisterFile

variable {s s' s'' : State} {v : Value} {lost : List Reg}

/-! ## Copies -/

/-- A pair matches a value in full if it holds exactly that word. -/
theorem pairMatch?_eq_full {rf : RegisterFile} {p : Pair} :
    rf.pairMatch? p v = some .full ↔ rf.pairValue? p = some v := by
  cases hp : p.halves? with
  | none => simp [pairMatch?, pairValue?, hp]
  | some hl =>
    obtain ⟨high, low⟩ := hl
    rw [pairValue?_eq_some hp]
    simp only [pairMatch?, hp]
    split
    next hfull => simp [hfull]
    next hfull =>
      split
      · simp [hfull]
      · simp [hfull]

/-- A value is held in a register, in a pair or in the save slot. -/
theorem isHeld_iff :
    s.isHeld v lost = true ↔
      (∃ r ≠ .m, r ∉ lost ∧ s.regs.get r = .scalar v) ∨
        (∃ p high low, p.halves? = some (high, low) ∧ high ∉ lost ∧ low ∉ lost ∧
          s.regs.pairValue? p = some v) ∨ s.isSaved v = true := by
  constructor
  · intro h
    simp only [State.isHeld, Bool.or_eq_true, List.any_eq_true, Bool.and_eq_true] at h
    obtain (⟨r, hr, hlost, hv⟩ | ⟨p, -, hhalves, hfull⟩) | hsaved := h
    · exact .inl ⟨r, Reg.ne_of_mem_all hr, by simpa using hlost, by simpa [holds] using hv⟩
    · obtain ⟨hl, hp, hout⟩ := (Option.any_eq_true _ _).mp hhalves
      simp only [Bool.and_eq_true, Bool.not_eq_true', List.contains_eq_mem,
        decide_eq_false_iff_not] at hout
      exact .inr (.inl ⟨p, hl.1, hl.2, hp, hout.1, hout.2,
        pairMatch?_eq_full.mp (of_decide_eq_true hfull)⟩)
    · exact .inr (.inr hsaved)
  · rintro (⟨r, hr, hlost, hv⟩ | ⟨p, high, low, hp, hhigh, hlow, hv⟩ | hsaved)
    · exact isHeld_of_register (Reg.mem_all hr) hlost hv
    · exact isHeld_of_pairValue? hp hhigh hlow hv
    · exact isHeld_of_isSaved hsaved

/-- A value in memory can be had if its address is held. -/
theorem hasCopy_iff :
    s.hasCopy v lost = true ↔
      reloadable v = true ∨ s.isHeld v lost = true ∨
        ∃ o, v = .of o ∧ s.isMemoryOperand o = true ∧ s.isHeld (.addr o) lost = true := by
  cases v with
  | of o => simp [State.hasCopy, or_assoc]
  | addr o => simp [State.hasCopy]

/-- A value is live if the current triple or a later one needs it. -/
theorem isLive_iff :
    s.isLive v = true ↔ ∃ t ∈ s.triples.drop s.pos, needs s.triples v t = true := by
  simp [State.isLive, State.nextUse?, List.findIdx?_isSome]

/-- Who needs a value in memory needs its address. -/
theorem isLive_addr {o : Operand} (ho : s.isMemoryOperand o = true) (h : s.isLive (.of o) = true) :
    s.isLive (.addr o) = true := by
  obtain ⟨t, ht, hneeds⟩ := isLive_iff.mp h
  refine isLive_iff.mpr ⟨t, ht, ?_⟩
  obtain ⟨use, huse, heq⟩ := List.any_eq_true.mp hneeds
  refine List.any_eq_true.mpr ⟨use, huse, ?_⟩
  simp only [Bool.and_eq_true, decide_eq_true_eq] at heq
  have hmemory : isMemoryOperand s.triples use.1 = true := heq.1 ▸ ho
  simp [heq.1, hmemory]

/-! ## What a step may lose -/

/-- Only the record of the registers in `lost` has changed, and what was saved still is. -/
structure Spends (lost : List Reg) (s s' : State) : Prop where
  triples : s'.triples = s.triples
  pos : s'.pos = s.pos
  record : ∀ r, r ≠ .m → r ∉ lost → s'.regs.get r = s.regs.get r
  slot : ∀ v, s.isSaved v = true → s'.isSaved v = true

/-- No value that is needed has lost its last copy. -/
structure Retains (s s' : State) : Prop where
  triples : s'.triples = s.triples
  pos : s'.pos = s.pos
  copies : ∀ v, s.isLive v = true → s.hasCopy v [] = true → s'.hasCopy v [] = true

/-- Liveness looks at the triples and the position only, not at the registers. -/
theorem isLive_congr (htriples : s'.triples = s.triples) (hpos : s'.pos = s.pos) (v : Value) :
    s'.isLive v = s.isLive v := by
  simp only [State.isLive, State.nextUse?, htriples, hpos]

theorem Retains.refl : Retains s s :=
  ⟨rfl, rfl, fun _ _ h => h⟩

/-- Two steps that lose nothing lose nothing together, since the live values are the same for
both. -/
theorem Retains.trans (h : Retains s s') (h' : Retains s' s'') : Retains s s'' where
  triples := h'.triples.trans h.triples
  pos := h'.pos.trans h.pos
  copies v hlive hcopy :=
    h'.copies v ((isLive_congr h.triples h.pos v).trans hlive) (h.copies v hlive hcopy)

/-- A value that was held outside the registers in question is still held outside them. -/
theorem Spends.isHeld (h : Spends lost s s') (hv : s.isHeld v lost = true) :
    s'.isHeld v lost = true := by
  obtain ⟨r, hr, hlost, hscalar⟩ | ⟨p, high, low, hp, hhigh, hlow, hpair⟩ | hsaved :=
    isHeld_iff.mp hv
  · exact isHeld_iff.mpr (.inl ⟨r, hr, hlost, (h.record r hr hlost).trans hscalar⟩)
  · have hne := Pair.halves?_ne hp
    refine isHeld_iff.mpr (.inr (.inl ⟨p, high, low, hp, hhigh, hlow, ?_⟩))
    rw [pairValue?_eq_some hp] at hpair ⊢
    rwa [h.record high hne.1 hhigh, h.record low hne.2.1 hlow]
  · exact isHeld_of_isSaved (h.slot v hsaved)

/-- A copy that does not depend on the registers is still there. -/
theorem Spends.hasCopy (h : Spends lost s s') (hv : s.hasCopy v lost = true) :
    s'.hasCopy v lost = true := by
  obtain hreload | hheld | ⟨o, rfl, hmemory, hheld⟩ := hasCopy_iff.mp hv
  · exact hasCopy_iff.mpr (.inl hreload)
  · exact hasCopy_iff.mpr (.inr (.inl (h.isHeld hheld)))
  · refine hasCopy_iff.mpr (.inr (.inr ⟨o, rfl, ?_, h.isHeld hheld⟩))
    rwa [State.isMemoryOperand, h.triples]

theorem isHeld_nil (h : s.isHeld v lost = true) : s.isHeld v [] = true := by
  obtain ⟨r, hr, -, hscalar⟩ | ⟨p, high, low, hp, -, -, hpair⟩ | hsaved := isHeld_iff.mp h
  · exact isHeld_iff.mpr (.inl ⟨r, hr, List.not_mem_nil, hscalar⟩)
  · exact isHeld_of_pairValue? hp List.not_mem_nil List.not_mem_nil hpair
  · exact isHeld_of_isSaved hsaved

/-- A value that can be had without some registers can be had. -/
theorem hasCopy_nil (h : s.hasCopy v lost = true) : s.hasCopy v [] = true := by
  obtain hreload | hheld | ⟨o, rfl, hmemory, hheld⟩ := hasCopy_iff.mp h
  · exact hasCopy_iff.mpr (.inl hreload)
  · exact hasCopy_iff.mpr (.inr (.inl (isHeld_nil hheld)))
  · exact hasCopy_iff.mpr (.inr (.inr ⟨o, rfl, hmemory, isHeld_nil hheld⟩))

/-- It is enough that the values of the registers in question can still be had. -/
theorem Spends.retains (h : Spends lost s s')
    (hkept : ∀ r ∈ lost, ∀ v, (s.regs.get r).value? = some v → s.isLive v = true →
      s'.hasCopy v [] = true) : Retains s s' where
  triples := h.triples
  pos := h.pos
  copies v hlive hcopy := by
    -- A value that was held is still held, or it was in one of the registers in question.
    have hheld : ∀ v, s.isLive v = true → s.isHeld v [] = true → s'.hasCopy v [] = true := by
      intro v hlive hv
      obtain ⟨r, hr, -, hscalar⟩ | ⟨p, high, low, hp, -, -, hpair⟩ | hsaved := isHeld_iff.mp hv
      · by_cases hlost : r ∈ lost
        · exact hkept r hlost v (by rw [hscalar]; rfl) hlive
        · exact hasCopy_nil (hasCopy_iff.mpr (.inr (.inl
            (h.isHeld (isHeld_iff.mpr (.inl ⟨r, hr, hlost, hscalar⟩))))))
      · have hhalves := (pairValue?_eq_some hp).mp hpair
        by_cases hhigh : high ∈ lost
        · exact hkept high hhigh v (by rw [hhalves.1]; rfl) hlive
        · by_cases hlow : low ∈ lost
          · exact hkept low hlow v (by rw [hhalves.2]; rfl) hlive
          · exact hasCopy_nil (hasCopy_iff.mpr (.inr (.inl
              (h.isHeld (isHeld_of_pairValue? hp hhigh hlow hpair)))))
      · exact hasCopy_iff.mpr (.inr (.inl (isHeld_of_isSaved (h.slot v hsaved))))
    obtain hreload | hv | ⟨o, rfl, hmemory, hv⟩ := hasCopy_iff.mp hcopy
    · exact hasCopy_iff.mpr (.inl hreload)
    · exact hheld v hlive hv
    · have haddress := hheld (.addr o) (isLive_addr hmemory hlive) hv
      obtain hreload | hv' | ⟨_, hnot, -⟩ := hasCopy_iff.mp haddress
      · cases o with
        | var name => cases hmemory
        | const _ | temp _ => cases hreload
      · refine hasCopy_iff.mpr (.inr (.inr ⟨o, rfl, ?_, hv'⟩))
        rwa [State.isMemoryOperand, h.triples]
      · cases hnot

/-! ## Work registers -/

/-- Clearing a register affects it and, if it held half of a word, the other half. -/
theorem spends_clear (r : Reg) : Spends (s.regs.lost r) s { s with regs := s.regs.clear r } :=
  ⟨rfl, rfl, fun _ hq hlost => get_clear_of_not_mem hq hlost, fun _ h => h⟩

/-- A work register has no value, or one that is not needed or that can be had without it. -/
theorem hasCopy_of_workRegister? {exclude : List Reg} {r : Reg}
    (h : s.workRegister? exclude = some r) (hv : (s.regs.get r).value? = some v)
    (hlive : s.isLive v = true) : s.hasCopy v (s.span r) = true := by
  obtain ⟨⟨cost, q⟩, hfold, rfl⟩ := Option.map_eq_some_iff.mp h
  obtain hnone | ⟨-, hcost⟩ := foldl_cheaper_eq_some hfold
  · cases hnone
  · simp only [State.evictionCost?, hv, hlive] at hcost
    split at hcost
    · cases hcost
    · simp at hcost
      exact hcost.1

/-- For a work register, what the search takes to be lost is what is lost. -/
theorem span_eq_lost {r : Reg} (hr : r ∈ [Reg.b, .c, .d, .e]) : s.span r = s.regs.lost r := by
  have hpair : ∃ hl, r.pair?.bind Pair.halves? = some hl := by
    cases r <;> first | exact ⟨_, rfl⟩ | simp at hr
  obtain ⟨hl, hpair⟩ := hpair
  unfold State.span RegisterFile.lost
  cases s.regs.get r <;> simp [hpair]

/-- Taking a work register loses no value. -/
theorem retains_clear_work {exclude : List Reg} {r : Reg} (hmatched : s.regs.Matched)
    (h : s.workRegister? exclude = some r) : Retains s { s with regs := s.regs.clear r } := by
  have hwork := (workRegister?_eq_some h).1
  refine (spends_clear r).retains fun q hq v hv hlive => ?_
  rw [hmatched.value?_eq_of_mem_lost hq] at hv
  refine hasCopy_nil ((spends_clear r).hasCopy ?_)
  rw [← span_eq_lost hwork]
  exact hasCopy_of_workRegister? h hv hlive

/-- A work register takes a byte: nothing is lost, and registers outside its pair are as before. -/
theorem retains_copy_work {exclude : List Reg} {r : Reg} (hmatched : s.regs.Matched)
    (h : s.workRegister? exclude = some r) (code : List Instr) (v : Value) :
    Retains s { s with code, regs := (s.regs.clear r).bind r v } := by
  have hwork := (workRegister?_eq_some h).1
  have hm : r ≠ .m := by rintro rfl; simp at hwork
  have hspends : Spends [r] { s with regs := s.regs.clear r }
      { s with code, regs := (s.regs.clear r).bind r v } := by
    refine ⟨rfl, rfl, fun q hq hlost => ?_, fun _ h => h⟩
    refine get_bind_of_not_mem hq ?_
    rw [mem_lost_iff, get_clear_self hm]
    simpa [Content.isHalf] using hlost
  -- The register was emptied, so that nothing is lost when the byte comes in.
  refine (retains_clear_work hmatched h).trans (hspends.retains fun q hq u hu => ?_)
  rw [List.mem_singleton.mp hq] at hu
  rw [show ({ s with regs := s.regs.clear r } : State).regs.get r = .empty from
    get_clear_self hm] at hu
  cases hu

/-- The byte in a register is kept: no value is lost, the registers in `lost` that hold bytes are as
before, and the byte can be had without them if it is needed. Nothing is done unless it has to be.
-/
structure KeptByte (r : Reg) (lost : List Reg) (afterCurrent : Bool) (s s' : State) : Prop where
  retains : Retains s s'
  matched : s'.regs.Matched
  record : ∀ q ∈ lost, q ≠ .m → (s.regs.get q).isHalf = false → s'.regs.get q = s.regs.get q
  copy : ∀ v, s.regs.get r = .scalar v →
    (if afterCurrent then s.isLiveAfter v else s.isLive v) = true → s'.hasCopy v lost = true
  moved : s' = s ∨ ∃ v, s.regs.get r = .scalar v ∧ s.mustKeep v lost afterCurrent = true

variable {r : Reg} {afterCurrent : Bool}

/-- A byte that will be missed is copied to a work register outside the registers that are to be
lost. Then it can be had without them. -/
theorem after_keepByte (hmatched : s.regs.Matched) (hv : s.regs.get r = .scalar v) :
    After (keepByte v r lost afterCurrent) s fun _ s' => KeptByte r lost afterCurrent s s' := by
  unfold keepByte
  simp only [after_bind, after_get]
  refine after_ite (fun hmust => ?_) (fun hfree => ?_)
  · simp only [takeWork, after_bind, after_get]
    split
    next target htarget =>
      simp only [after_bind, after_record, after_pure, after_emit]
      obtain ⟨hwork, hexclude, -⟩ := workRegister?_eq_some htarget
      have hm : target ≠ .m := by rintro rfl; simp at hwork
      -- The work register is outside the registers to be lost, so they keep what they hold.
      refine ⟨retains_copy_work hmatched htarget _ v, hmatched.clear.bind, ?_, fun u hu _ => ?_,
        .inr ⟨v, hv, hmust⟩⟩
      · intro q hq hqm hhalf
        have hne : q ≠ target := fun heq => hexclude (heq ▸ hq)
        have hnot : q ∉ s.regs.lost target := by
          rw [mem_lost_iff]
          rintro (heq | ⟨htarget, p, hqp, htp⟩)
          · exact hne heq
          · rw [hmatched.isHalf_eq hqp htp, htarget] at hhalf
            cases hhalf
        have hnot' : q ∉ (s.regs.clear target).lost target := by
          rw [mem_lost_iff, get_clear_self hm]
          simpa [Content.isHalf] using hne
        show ((s.regs.clear target).bind target v).get q = s.regs.get q
        rw [get_bind_of_not_mem hqm hnot', get_clear_of_not_mem hqm hnot]
      · rw [hv] at hu
        cases hu
        exact hasCopy_iff.mpr (.inr (.inl (isHeld_of_register (Reg.mem_all hm) hexclude
          (get_bind_self hm))))
    next => exact after_reject _
  · refine (after_pure _).mpr ⟨.refl, hmatched, fun _ _ _ _ => rfl, fun u hu hlive => ?_, .inl rfl⟩
    rw [hv] at hu
    cases hu
    simpa [State.mustKeep, hlive] using hfree

/-- A register is kept if it holds a byte, and left alone otherwise. -/
theorem after_keepScalar (hmatched : s.regs.Matched) :
    After (keepScalar r lost afterCurrent) s fun _ s' => KeptByte r lost afterCurrent s s' := by
  unfold keepScalar
  simp only [after_bind, after_get]
  split
  next v hv => exact after_keepByte hmatched hv
  next hnot =>
    exact (after_pure _).mpr ⟨.refl, hmatched, fun _ _ _ _ => rfl, fun v hv => absurd hv (hnot v),
      .inl rfl⟩

/-- The accumulator is about to be overwritten. Its value moves to a work register if it is needed
and nothing else has it, so that no value is lost. -/
theorem after_saveAccumulator (hmatched : s.regs.Matched) :
    After (saveAccumulator afterCurrent) s fun _ s' => Retains s s' := by
  unfold saveAccumulator
  simp only [after_bind, after_get]
  split
  next => exact (after_pure _).mpr .refl
  next v hv =>
    refine after_ite (fun _ => ?_) (fun _ => (after_pure _).mpr .refl)
    split
    next target htarget =>
      simp only [after_bind, after_record, after_emit]
      exact retains_copy_work hmatched htarget _ v
    next => exact after_reject _

/-! ## Pairs -/

/-- What the registers hold is not needed, or it can be had without them. -/
def State.CanSpare (s : State) (regs : List Reg) : Prop :=
  ∀ r ∈ regs, ∀ v, (s.regs.get r).value? = some v → s.isLive v = true → s.hasCopy v regs = true

variable {p : Pair} {high low : Reg}

/-- A free pair can be spared: its values are not needed, or they can be had without it. -/
theorem canSpare_of_isFree (hp : p.halves? = some (high, low)) (h : s.isFree p = true) :
    s.CanSpare [high, low] := by
  simp only [State.isFree, hp, List.all_eq_true] at h
  intro r hr v hv hlive
  have hfree := h r hr
  simp only [hv, Bool.and_eq_true, Bool.not_eq_true', State.mustKeep, Bool.false_eq_true,
    if_false, hlive, Bool.true_and] at hfree
  simpa using hfree.2

/-- What only the registers in question held is gone, and that is all right. -/
theorem Spends.retains_of_canSpare (h : Spends lost s s') (hspare : s.CanSpare lost) :
    Retains s s' :=
  h.retains fun r hr v hv hlive => hasCopy_nil (h.hasCopy (hspare r hr v hv hlive))

theorem retains_clearPair (hp : p.halves? = some (high, low)) (hspare : s.CanSpare [high, low]) :
    Retains s { s with regs := s.regs.clearPair p } := by
  refine Spends.retains_of_canSpare ⟨rfl, rfl, fun r hr hlost => ?_, fun _ h => h⟩ hspare
  simp only [List.mem_cons, List.not_mem_nil, or_false, not_or] at hlost
  exact get_clearPair_of_ne hp hr hlost.1 hlost.2

/-- A pair that can be spared can take the word of another pair, which keeps it. -/
theorem retains_copyPair {source : Pair} {sh sl : Reg} (hsource : source.halves? = some (sh, sl))
    (hp : p.halves? = some (high, low)) (hspare : s.CanSpare [high, low]) :
    Retains s { s with regs := s.regs.copyPair source p } := by
  refine Spends.retains_of_canSpare ⟨rfl, rfl, fun r hr hlost => ?_, fun _ h => h⟩ hspare
  simp only [List.mem_cons, List.not_mem_nil, or_false, not_or] at hlost
  exact get_copyPair_of_ne hsource hp hr hlost.1 hlost.2

/-- A state with the same record and the same save slot. -/
theorem retains_of_get (htriples : s'.triples = s.triples) (hpos : s'.pos = s.pos)
    (hspill : s'.spill = s.spill) (hregs : ∀ r, r ≠ .m → s'.regs.get r = s.regs.get r) :
    Retains s s' := by
  have hspends : Spends [] s s' := by
    refine ⟨htriples, hpos, fun r hr _ => hregs r hr, fun v hv => ?_⟩
    rwa [State.isSaved, hspill]
  exact hspends.retains fun _ h => absurd h List.not_mem_nil

/-- A word that another pair holds too can be spared. The two pairs have no register in common, so
one copy outlives the other. -/
theorem canSpare_of_pairValue? {q : Pair} {qh ql : Reg} (hp : p.halves? = some (high, low))
    (hq : q.halves? = some (qh, ql)) (hne : q ≠ p) (hpv : s.regs.pairValue? p = some v)
    (hqv : s.regs.pairValue? q = some v) : s.CanSpare [high, low] := by
  obtain ⟨hhigh, hlow⟩ := (pairValue?_eq_some hp).mp hpv
  have hdistinct : qh ∉ [high, low] ∧ ql ∉ [high, low] := by
    cases p <;> cases hp <;> cases q <;> cases hq <;> first | decide | exact absurd rfl hne
  intro r hr u hu _
  have hv : u = v := by
    simp only [List.mem_cons, List.not_mem_nil, or_false] at hr
    obtain rfl | rfl := hr
    · rw [hhigh] at hu
      exact (Option.some.inj hu).symm
    · rw [hlow] at hu
      exact (Option.some.inj hu).symm
  subst hv
  exact hasCopy_iff.mpr (.inr (.inl (isHeld_of_pairValue? hq hdistinct.1 hdistinct.2 hqv)))

/-- The pair holds two different bytes, and neither can do without a register. -/
def State.HoldsTwoBytes (s : State) (p : Pair) : Prop :=
  ∃ high low v w, p.halves? = some (high, low) ∧ s.regs.get high = .scalar v ∧
    s.regs.get low = .scalar w ∧ v ≠ w ∧ s.isLive v = true ∧ s.isLive w = true ∧
    reloadable v = false ∧ reloadable w = false

/-- A register that has a value and no half of a word has a byte. -/
theorem value?_eq_some_scalar {c : Content} (hhalf : c.isHalf = false) (hv : c.value? = some v) :
    c = .scalar v := by
  cases c with
  | empty => cases hv
  | scalar u =>
    cases hv
    rfl
  | half u side => cases hhalf

/-- A pair without a word of its own holds bytes, if anything. -/
theorem isHalf_of_pairValue? (hmatched : s.regs.Matched) (hp : p.halves? = some (high, low))
    (hnone : s.regs.pairValue? p = none) :
    (s.regs.get high).isHalf = false ∧ (s.regs.get low).isHalf = false := by
  obtain ⟨v, hhigh, hlow⟩ | hbytes := hmatched.pair hp
  · rw [(pairValue?_eq_some hp).mpr ⟨hhigh, hlow⟩] at hnone
    cases hnone
  · exact hbytes

/-- The bytes of a pair are moved out of it. The second moves only if it differs from the first, and
then the first is no byte that would be missed. -/
theorem after_keepScalars (hmatched : s.regs.Matched) (hp : p.halves? = some (high, low))
    (hnone : s.regs.pairValue? p = none) (htwo : ¬s.HoldsTwoBytes p) :
    After (keepScalar high [high, low] false) s fun _ s₁ =>
      After (keepScalar low [high, low] false) s₁ fun _ s₂ =>
        Retains s s₂ ∧ s₂.CanSpare [high, low] := by
  obtain ⟨hhigh, hlow⟩ := isHalf_of_pairValue? hmatched hp hnone
  have hne := Pair.halves?_ne hp
  refine (after_keepScalar hmatched).mono fun _ s₁ hfirst => ?_
  have hhigh₁ := hfirst.record high List.mem_cons_self hne.1 hhigh
  have hlow₁ := hfirst.record low (List.mem_cons_of_mem _ List.mem_cons_self) hne.2.1 hlow
  have hlive₁ := isLive_congr hfirst.retains.triples hfirst.retains.pos
  -- If the low byte has to move, the high one is the same, is not needed, or can be loaded again.
  have hmoved : ∀ v w, s.regs.get high = .scalar v → s.regs.get low = .scalar w →
      s.isLive v = true → s₁.mustKeep w [high, low] false = true → reloadable v = true := by
    intro v w hv hw hlive hmust
    simp only [State.mustKeep, Bool.false_eq_true, if_false, hlive₁, Bool.and_eq_true,
      Bool.not_eq_true'] at hmust
    by_contra hreload
    have hwreload : reloadable w = false := by
      by_contra hw
      simp [State.hasCopy, hw] at hmust
    refine htwo ⟨high, low, v, w, hp, hv, hw, ?_, hlive, hmust.1, by simpa using hreload, hwreload⟩
    rintro rfl
    rw [hfirst.copy v hv (by simpa using hlive)] at hmust
    cases hmust.2
  refine (after_keepScalar hfirst.matched).mono fun _ s₂ hsecond => ?_
  have hhigh₂ := hsecond.record high List.mem_cons_self hne.1 (by rwa [hhigh₁])
  have hlow₂ := hsecond.record low (List.mem_cons_of_mem _ List.mem_cons_self) hne.2.1
    (by rwa [hlow₁])
  refine ⟨hfirst.retains.trans hsecond.retains, fun r hr u hu hlive₂ => ?_⟩
  rw [isLive_congr hsecond.retains.triples hsecond.retains.pos] at hlive₂
  simp only [List.mem_cons, List.not_mem_nil, or_false] at hr
  obtain rfl | rfl := hr
  · rw [hhigh₂, hhigh₁] at hu
    have hv := value?_eq_some_scalar hhigh hu
    rw [hlive₁] at hlive₂
    obtain rfl | ⟨w, hw, hmust⟩ := hsecond.moved
    · exact hfirst.copy u hv (by simpa using hlive₂)
    · rw [hlow₁] at hw
      exact hasCopy_iff.mpr (.inl (hmoved u w hv hw hlive₂ hmust))
  · rw [hlow₂] at hu
    exact hsecond.copy u (value?_eq_some_scalar (by rwa [hlow₁]) hu) (by simpa using hlive₂)

/-! ## Steps that make room -/

theorem get_clearPair_h (rf : RegisterFile) :
    (rf.clearPair .h).get .h = .empty ∧ (rf.clearPair .h).get .l = .empty :=
  get_clearPair rfl

/-- HL is forgotten in the end. -/
theorem after_forgetHL {Q : Bool → State → Prop} (h : Retains s s') (hspare : s'.CanSpare [.h, .l])
    (hQ : ∀ s'', Retains s s'' → s''.regs.get .h = .empty → s''.regs.get .l = .empty →
      Q false s'') :
    After (do record (·.clearPair .h); return false) s' Q := by
  simp only [after_bind, after_record, after_pure]
  have hempty := get_clearPair_h s'.regs
  exact hQ _ (h.trans (retains_clearPair (p := .h) rfl hspare)) hempty.1 hempty.2

/-- A word that is not needed, or that can be had elsewhere. -/
theorem canSpare_of_not_mustKeep (hp : p.halves? = some (high, low))
    (hv : s.regs.pairValue? p = some v) (h : ¬s.mustKeep v [high, low] false = true) :
    s.CanSpare [high, low] := by
  obtain ⟨hhigh, hlow⟩ := (pairValue?_eq_some hp).mp hv
  intro r hr u hu hlive
  have heq : u = v := by
    simp only [List.mem_cons, List.not_mem_nil, or_false] at hr
    obtain rfl | rfl := hr
    · rw [hhigh] at hu
      exact (Option.some.inj hu).symm
    · rw [hlow] at hu
      exact (Option.some.inj hu).symm
  subst heq
  simpa [State.mustKeep, hlive] using h

/-- A word that was pushed can be spared. -/
theorem canSpare_of_isSaved (hp : p.halves? = some (high, low))
    (hv : s.regs.pairValue? p = some v) (h : s.isSaved v = true) : s.CanSpare [high, low] := by
  refine canSpare_of_not_mustKeep hp hv ?_
  have hcopy : s.hasCopy v [high, low] = true := hasCopy_iff.mpr (.inr (.inl (isHeld_of_isSaved h)))
  simp [State.mustKeep, hcopy]

/-- The save slot was empty. -/
theorem retains_push (hspill : s.spill = none) (code : List Instr) (slot : Spill) :
    Retains s { s with code, spill := some slot } := by
  have hspends : Spends [] s { s with code, spill := some slot } := by
    refine ⟨rfl, rfl, fun _ _ _ => rfl, fun v hv => ?_⟩
    simp [State.isSaved, hspill] at hv
  exact hspends.retains fun _ h => absurd h List.not_mem_nil

/-- The code is not looked at. -/
theorem retains_code (code : List Instr) : Retains s { s with code } :=
  retains_of_get rfl rfl rfl fun _ _ => rfl

/-- A word is copied into a pair that can be spared, and then its own pair can be. -/
theorem after_copyPair {q : Pair} {sh sl : Reg} (hq : q.halves? = some (sh, sl))
    (hp : p.halves? = some (high, low)) (hne : p ≠ q) (hspare : s.CanSpare [high, low])
    (hv : s.regs.pairValue? q = some v) :
    After (copyPair q p) s fun _ s' => Retains s s' ∧ s'.CanSpare [sh, sl] := by
  unfold copyPair
  simp only [hq, hp, after_bind, after_emitAll, after_record]
  have hcopied := retains_copyPair hq hp hspare
  refine ⟨hcopied.trans (retains_code _), canSpare_of_pairValue? (v := v) hq hp hne ?_ ?_⟩
  · have hs := Pair.halves?_ne hq
    have hdistinct : sh ≠ high ∧ sh ≠ low ∧ sl ≠ high ∧ sl ≠ low := by
      cases p <;> cases hp <;> cases q <;> cases hq <;>
        first | decide | exact absurd rfl hne
    rw [pairValue?_eq_some hq] at hv ⊢
    rwa [get_copyPair_of_ne hq hp hs.1 hdistinct.1 hdistinct.2.1,
      get_copyPair_of_ne hq hp hs.2.1 hdistinct.2.2.1 hdistinct.2.2.2]
  · rw [pairValue?_eq_some hq] at hv
    rw [pairValue?_eq_some hp, (get_copyPair hq hp).1, (get_copyPair hq hp).2]
    exact hv

/-- DE and HL are exchanged and HL is forgotten: in effect, HL is copied first. -/
theorem retains_exchange_forget (hspare : s.CanSpare [.d, .e]) (hv : s.regs.pairValue? .h = some v)
    (code : List Instr) :
    Retains s { s with code, regs := (s.regs.swapPairs .d .h).clearPair .h } := by
  have hcopied := after_copyPair (q := .h) (p := .d) rfl rfl (by decide) hspare hv _ _ rfl
  refine hcopied.1.trans ((retains_clearPair (p := .h) rfl hcopied.2).trans
    (retains_of_get rfl rfl rfl fun r hr => ?_))
  have hleft := get_clearPair_h (s.regs.swapPairs .d .h)
  have hright := get_clearPair_h (s.regs.copyPair .h .d)
  by_cases hhl : r = .h ∨ r = .l
  · obtain rfl | rfl := hhl
    · exact hleft.1.trans hright.1.symm
    · exact hleft.2.trans hright.2.symm
  · rw [not_or] at hhl
    refine (get_clearPair_of_ne (p := .h) rfl hr hhl.1 hhl.2).trans
      (Eq.trans ?_ (get_clearPair_of_ne (p := .h) rfl hr hhl.1 hhl.2).symm)
    cases r <;> first | rfl | exact absurd rfl hhl.1 | exact absurd rfl hhl.2

/-- With nothing to be loaded into HL, its word is pushed, which needs an empty save slot. The
answer is false: HL is still to be loaded. -/
theorem after_spillHL (hv : s.regs.pairValue? .h = some v) :
    After (spillHL v none) s fun answer s' =>
      answer = false ∧ Retains s s' ∧ s'.CanSpare [.h, .l] := by
  unfold spillHL
  rw [after_bind, after_get]
  split
  next hspill =>
    simp only [pushSpill, after_bind, after_get, after_emit, after_modify, after_pure, true_and]
    refine ⟨retains_push hspill _ _, canSpare_of_isSaved (p := .h) rfl hv ?_⟩
    simp [State.isSaved]
  next => exact after_ite (fun h => by cases h) (fun _ => after_reject _)

/-- Without a value to be loaded, HL is empty afterwards, and what it held can still be had: moved,
saved, or loaded again. -/
theorem after_vacateHL (hmatched : s.regs.Matched) (htwo : ¬s.HoldsTwoBytes .h) :
    After (vacateHL none) s fun _ s' =>
      Retains s s' ∧ s'.regs.get .h = .empty ∧ s'.regs.get .l = .empty := by
  unfold vacateHL
  rw [after_bind, after_get]
  split
  next v hv =>
    refine after_ite (fun h => by cases h) (fun _ => after_ite (fun _ => ?_) (fun hfree => ?_))
    · -- The word moves to DE if that is free, then to BC, and to the save slot as a last resort.
      refine after_ite (fun hd => ?_) (fun _ => after_ite (fun hb => ?_) (fun _ => ?_))
      · simp only [exchange, after_bind, after_emit, after_record, after_pure]
        exact ⟨retains_exchange_forget (canSpare_of_isFree (p := .d) rfl hd) hv _,
          get_clearPair (p := .h) rfl⟩
      · rw [after_bind]
        refine (after_copyPair (q := .h) (p := .b) rfl rfl (by decide)
          (canSpare_of_isFree rfl hb) hv).mono fun _ s' hcopied => ?_
        exact after_forgetHL hcopied.1 hcopied.2 fun _ h hh hl => ⟨h, hh, hl⟩
      · rw [after_bind]
        refine (after_spillHL hv).mono fun answer s' hspilled => ?_
        obtain ⟨rfl, hretains, hspare⟩ := hspilled
        exact after_forgetHL hretains hspare fun _ h hh hl => ⟨h, hh, hl⟩
    · exact after_forgetHL .refl (canSpare_of_not_mustKeep rfl hv hfree)
        fun _ h hh hl => ⟨h, hh, hl⟩
  next hnone =>
    rw [after_bind]
    -- HL has no word, so there are at most two bytes to move.
    refine (after_keepScalars hmatched rfl hnone htwo).mono fun _ s₁ hsecond => ?_
    rw [after_bind]
    exact hsecond.mono fun _ s₂ hkept => after_forgetHL hkept.1 hkept.2 fun _ h hh hl => ⟨h, hh, hl⟩

/-- HL is about to be changed in place. A value in it that a later triple needs is copied first, so
that no value is lost. -/
theorem after_preserveHL (hmatched : s.regs.Matched) :
    After preserveHL s fun _ s' => Retains s s' := by
  unfold preserveHL
  rw [after_bind, after_get]
  split
  next v hv =>
    refine after_ite (fun _ => ?_) (fun _ => (after_pure _).mpr .refl)
    refine after_ite (fun hd => ?_) (fun _ => after_ite (fun hb => ?_) (fun _ => ?_))
    · exact (after_copyPair (q := .h) (p := .d) rfl rfl (by decide) (canSpare_of_isFree rfl hd)
        hv).mono fun _ _ hcopied => hcopied.1
    · exact (after_copyPair (q := .h) (p := .b) rfl rfl (by decide) (canSpare_of_isFree rfl hb)
        hv).mono fun _ _ hcopied => hcopied.1
    · rw [after_bind]
      exact (after_spillHL hv).mono fun _ _ hspilled => (after_pure _).mpr hspilled.2.1
  next =>
    -- Both bytes stay in HL, so it does not matter where the copies go.
    rw [after_bind]
    refine (after_keepScalar hmatched).mono fun _ s₁ hfirst => ?_
    exact (after_keepScalar hfirst.matched).mono fun _ s₂ hsecond =>
      hfirst.retains.trans hsecond.retains

/-- HL that can be spared is forgotten, and nothing else is done. -/
theorem after_vacateHL_of_isFree (hmatched : s.regs.Matched) (hfree : s.isFree .h = true) :
    After (vacateHL none) s fun _ s' => s' = { s with regs := s.regs.clearPair .h } := by
  have hspare := canSpare_of_isFree (p := .h) rfl hfree
  -- Neither half has a value that must be kept, so no branch that moves one is taken.
  have hmust : ∀ r ∈ [Reg.h, .l], ∀ v, (s.regs.get r).value? = some v →
      ¬s.mustKeep v [.h, .l] false = true := by
    intro r hr v hv hmust
    simp only [State.mustKeep, Bool.false_eq_true, if_false, Bool.and_eq_true,
      Bool.not_eq_true'] at hmust
    rw [hspare r hr v hv hmust.1] at hmust
    cases hmust.2
  have hkeep : ∀ r ∈ [Reg.h, .l],
      After (keepScalar r [.h, .l] false) s fun _ s' => s' = s := by
    intro r hr
    refine (after_keepScalar hmatched).mono fun _ s' hkept => ?_
    obtain heq | ⟨v, hv, hmoved⟩ := hkept.moved
    · exact heq
    · exact absurd hmoved (hmust r hr v (by rw [hv]; rfl))
  unfold vacateHL
  rw [after_bind, after_get]
  split
  next v hv =>
    have hhalves := (pairValue?_eq_some (p := .h) rfl).mp hv
    refine after_ite (fun h => by cases h) (fun _ => after_ite (fun hkept => ?_) (fun _ => ?_))
    · exact absurd hkept (hmust .h List.mem_cons_self v (by rw [hhalves.1]; rfl))
    · simp only [after_bind, after_record, after_pure]
  next =>
    rw [after_bind]
    refine (hkeep .h List.mem_cons_self).mono fun _ s₁ hs₁ => ?_
    subst hs₁
    rw [after_bind]
    refine (hkeep .l (List.mem_cons_of_mem _ List.mem_cons_self)).mono fun _ s₂ hs₂ => ?_
    subst hs₂
    simp only [after_bind, after_record, after_pure]

/-- DE goes to HL, which was empty. Of the four registers only two had a value, and it is in HL
then. -/
theorem retains_exchange_empty (hempty : s.regs.get .h = .empty ∧ s.regs.get .l = .empty)
    (hv : s.regs.pairValue? .d = some v) (code : List Instr) :
    Retains s { s with code, regs := s.regs.swapPairs .d .h } := by
  obtain ⟨hd, he⟩ := (pairValue?_eq_some (p := .d) rfl).mp hv
  have hmoved : (s.regs.swapPairs .d .h).pairValue? .h = some v :=
    (pairValue?_eq_some (p := .h) rfl).mpr ⟨hd, he⟩
  have hspends : Spends [.d, .e, .h, .l] s { s with code, regs := s.regs.swapPairs .d .h } := by
    refine ⟨rfl, rfl, fun r _ hlost => ?_, fun _ h => h⟩
    cases r <;> first | rfl | simp at hlost
  refine hspends.retains fun r hr u hu _ => ?_
  have heq : u = v := by
    simp only [List.mem_cons, List.not_mem_nil, or_false] at hr
    obtain rfl | rfl | rfl | rfl := hr
    · rw [hd] at hu
      exact (Option.some.inj hu).symm
    · rw [he] at hu
      exact (Option.some.inj hu).symm
    · rw [hempty.1] at hu
      cases hu
    · rw [hempty.2] at hu
      cases hu
  subst heq
  exact hasCopy_iff.mpr (.inr (.inl
    (isHeld_of_pairValue? (p := .h) rfl List.not_mem_nil List.not_mem_nil hmoved)))

/-- The word of DE or BC is copied to the other of the two, exchanged into a free HL or pushed, in
this order. Its own pair can be spared then. -/
theorem after_movePairAside (hmatched : s.regs.Matched) (hpair : p = .d ∨ p = .b)
    (hp : p.halves? = some (high, low)) (hv : s.regs.pairValue? p = some v) :
    After (movePairAside p v) s fun _ s' => Retains s s' ∧ s'.CanSpare [high, low] := by
  have hother : ∃ oh ol, (if p = .d then Pair.b else .d).halves? = some (oh, ol) ∧
      (if p = .d then Pair.b else .d) ≠ p := by
    obtain rfl | rfl := hpair
    · exact ⟨.b, .c, rfl, by decide⟩
    · exact ⟨.d, .e, rfl, by decide⟩
  obtain ⟨oh, ol, ho, hne⟩ := hother
  unfold movePairAside
  rw [after_bind, after_get]
  refine after_ite (fun hfree => ?_) (fun _ => after_ite (fun hfree => ?_)
    (fun _ => after_ite (fun hspill => ?_) (fun _ => after_reject _)))
  · exact after_copyPair hp ho hne (canSpare_of_isFree ho hfree) hv
  · obtain ⟨rfl, hfree⟩ := hfree
    cases hp
    rw [after_bind]
    refine (after_vacateHL_of_isFree hmatched hfree).mono fun _ s₁ hs₁ => ?_
    subst hs₁
    have hcleared := get_clearPair_h s.regs
    have hv₁ : (s.regs.clearPair .h).pairValue? .d = some v := by
      rw [pairValue?_eq_some (p := .d) rfl] at hv ⊢
      rwa [get_clearPair_of_ne (p := .h) rfl (by decide) (by decide) (by decide),
        get_clearPair_of_ne (p := .h) rfl (by decide) (by decide) (by decide)]
    simp only [exchange, after_bind, after_emit, after_record]
    refine ⟨(retains_clearPair (p := .h) rfl (canSpare_of_isFree rfl hfree)).trans
      (retains_exchange_empty hcleared hv₁ _), ?_⟩
    -- DE has what HL had, which is nothing.
    intro r hr u hu
    simp only [List.mem_cons, List.not_mem_nil, or_false] at hr
    obtain rfl | rfl := hr
    · rw [show ((s.regs.clearPair .h).swapPairs .d .h).get .d = .empty from hcleared.1] at hu
      cases hu
    · rw [show ((s.regs.clearPair .h).swapPairs .d .h).get .e = .empty from hcleared.2] at hu
      cases hu
  · have hnone : s.spill = none := by simpa using hspill
    simp only [pushSpill, after_bind, after_get, after_emit, after_modify]
    refine ⟨retains_push hnone _ _, canSpare_of_isSaved hp hv ?_⟩
    simp [State.isSaved]

/-- DE or BC is emptied, unless both of its halves hold bytes that are needed. -/
theorem after_vacatePair (hmatched : s.regs.Matched) (hpair : p = .d ∨ p = .b)
    (hp : p.halves? = some (high, low)) (htwo : ¬s.HoldsTwoBytes p) :
    After (vacatePair p) s fun _ s' =>
      Retains s s' ∧ s'.regs.get high = .empty ∧ s'.regs.get low = .empty := by
  have hforget : ∀ s', Retains s s' → s'.CanSpare [high, low] →
      After (record (·.clearPair p)) s' fun _ s'' =>
        Retains s s'' ∧ s''.regs.get high = .empty ∧ s''.regs.get low = .empty := by
    intro s' hretains hspare
    rw [after_record]
    exact ⟨hretains.trans (retains_clearPair hp hspare), get_clearPair hp⟩
  unfold vacatePair
  simp only [hp, after_bind, after_get]
  split
  next v hv =>
    refine after_ite (fun _ => ?_) (fun hfree => ?_)
    · rw [after_bind]
      exact (after_movePairAside hmatched hpair hp hv).mono fun _ s' hmoved =>
        hforget s' hmoved.1 hmoved.2
    · exact hforget s .refl (canSpare_of_not_mustKeep hp hv hfree)
  next hnone =>
    rw [after_bind]
    refine (after_keepScalars hmatched hp hnone htwo).mono fun _ s₁ hsecond => ?_
    rw [after_bind]
    exact hsecond.mono fun _ s₂ hkept => hforget s₂ hkept.1 hkept.2

/-- A register with half of a word is in a pair without bytes. -/
theorem not_holdsTwoBytes_of_isHalf (hmatched : s.regs.Matched) (hr : r.pair? = some p)
    (hhalf : (s.regs.get r).isHalf = true) : ¬s.HoldsTwoBytes p := by
  rintro ⟨high, low, v, w, hp, hhigh, -⟩
  have hpair : high.pair? = some p := by cases p <;> cases hp <;> rfl
  rw [← hmatched.isHalf_eq hpair hr, hhigh] at hhalf
  cases hhalf

/-- A register is made safe to overwrite. A byte is copied to a work register if it would be lost,
and for half of a word the whole pair is vacated. -/
theorem after_vacateReg (hmatched : s.regs.Matched) (hr : r ≠ .m) :
    After (vacateReg r) s fun _ s' => Retains s s' := by
  -- In the end the register is forgotten, when its value can be had without it.
  have hforget : ∀ s', Retains s s' → s'.CanSpare (s'.regs.lost r) →
      After (record (·.clear r)) s' fun _ s'' => Retains s s'' := by
    intro s' hretains hspare
    rw [after_record]
    exact hretains.trans ((spends_clear r).retains_of_canSpare hspare)
  have hempty : ∀ s' : State, s'.regs.get r = .empty → s'.CanSpare (s'.regs.lost r) := by
    intro s' hempty q hq v hv
    obtain rfl | ⟨hhalf, -⟩ := mem_lost_iff.mp hq
    · rw [hempty] at hv
      cases hv
    · rw [hempty] at hhalf
      cases hhalf
  unfold vacateReg
  simp only [after_bind, after_get]
  split
  next hcontent => exact hforget s .refl (hempty s hcontent)
  next v side hcontent =>
    have hhalf : (s.regs.get r).isHalf = true := by rw [hcontent]; rfl
    split
    next hpair =>
      have ha : r = .a := by cases r <;> first | rfl | exact absurd rfl hr | cases hpair
      rw [ha, hmatched.a] at hhalf
      cases hhalf
    next hpair =>
      rw [after_bind]
      refine (after_vacateHL hmatched (not_holdsTwoBytes_of_isHalf hmatched hpair hhalf)).mono
        fun _ s' hvacated => hforget s' hvacated.1 (hempty s' ?_)
      cases r <;> cases hpair
      · exact hvacated.2.1
      · exact hvacated.2.2
    next p hne hpair =>
      have hpairs : (p = .d ∨ p = .b) ∧ ∃ high low, p.halves? = some (high, low) ∧
          (r = high ∨ r = low) := by
        cases r <;> cases hpair <;>
          first | exact absurd rfl hne
                | exact ⟨.inl rfl, _, _, rfl, by simp⟩
                | exact ⟨.inr rfl, _, _, rfl, by simp⟩
      obtain ⟨hdb, high, low, hp, hrp⟩ := hpairs
      rw [after_bind]
      refine (after_vacatePair hmatched hdb hp
        (not_holdsTwoBytes_of_isHalf hmatched hpair hhalf)).mono
        fun _ s' hvacated => hforget s' hvacated.1 (hempty s' ?_)
      obtain rfl | rfl := hrp
      · exact hvacated.2.1
      · exact hvacated.2.2
  next v hcontent =>
    have hbyte : (s.regs.get r).isHalf = false := by rw [hcontent]; rfl
    rw [after_bind]
    refine (after_keepByte hmatched hcontent).mono fun _ s' hkept => hforget s' hkept.retains ?_
    have hsame := hkept.record r List.mem_cons_self hr hbyte
    have hlost : s'.regs.lost r = [r] := by
      unfold RegisterFile.lost
      rw [hsame, hcontent]
    rw [hlost]
    intro q hq u hu hlive
    cases List.mem_singleton.mp hq
    rw [hsame, hcontent] at hu
    cases hu
    rw [isLive_congr hkept.retains.triples hkept.retains.pos] at hlive
    exact hkept.copy v hcontent (by simpa using hlive)

/-! ## Requests -/

namespace Request

/-- What asks for room and for nothing else. -/
def MakesRoom : Request → Prop
  | saveAccumulator _ | preserveHL => True
  | vacateReg r => r ≠ .m
  | vacateHL incoming => incoming = none
  | vacatePair p => p = .d ∨ p = .b
  | _ => False

/-- The pair that is to be empty. -/
def vacated? : Request → Option Pair
  | vacateHL _ => some .h
  | vacatePair p => some p
  | _ => none

end Request

/-- Making room loses no value: one that is needed and can be had before can be had afterwards,
unless a pair with two such bytes was to be emptied. -/
theorem hasCopy_of_perform {q : Request} {a : q.Answer} (hq : q.MakesRoom)
    (hmatched : s.regs.Matched) (htwo : ∀ p ∈ q.vacated?, ¬s.HoldsTwoBytes p)
    (hperform : q.perform s = .ok a s') (hlive : s.isLive v = true)
    (hcopy : s.hasCopy v [] = true) : s'.hasCopy v [] = true := by
  suffices hretains : After q.perform s fun _ s' => Retains s s' from
    (hretains a s' hperform).copies v hlive hcopy
  cases q with
  | saveAccumulator afterCurrent => exact after_saveAccumulator hmatched
  | vacateReg r => exact after_vacateReg hmatched hq
  | vacateHL incoming =>
    obtain rfl : incoming = none := hq
    exact (after_vacateHL hmatched (htwo .h rfl)).mono fun _ _ hvacated => hvacated.1
  | preserveHL => exact after_preserveHL hmatched
  | vacatePair p =>
    have hhalves : ∃ high low, p.halves? = some (high, low) := by
      obtain rfl | rfl := hq
      · exact ⟨_, _, rfl⟩
      · exact ⟨_, _, rfl⟩
    obtain ⟨high, low, hp⟩ := hhalves
    exact (after_vacatePair hmatched hq hp (htwo p rfl)).mono fun _ _ hvacated => hvacated.1
  | takeWork _ | popSpill _ | loadAccumulator _ | loadCount _ | loadHL _ | loadPair _ _ => cases hq

/-- All three pairs are full and their words are needed, so that of HL is pushed. -/
theorem hasCopy_of_perform_crowded :
    crowdedState.isLive (.temp 1) = true ∧ crowdedState.hasCopy (.temp 1) [] = true ∧
      ∃ s', (Request.vacateHL none).perform crowdedState = .ok false s' ∧
        s'.regs.get .h = .empty ∧ s'.hasCopy (.temp 1) [] = true := by
  have hlive : crowdedState.isLive (.temp 1) = true := by decide
  have hcopy : crowdedState.hasCopy (.temp 1) [] = true := by decide
  have hmatched : crowdedState.regs.Matched := by
    show Matched (((({} : RegisterFile).bindPair .h _).bindPair .d _).bindPair .b _)
    exact matched_empty.bindPair.bindPair.bindPair
  have htwo : ¬crowdedState.HoldsTwoBytes .h := by
    rintro ⟨high, low, v, w, hp, hhigh, -⟩
    cases hp
    cases hhigh
  refine ⟨hlive, hcopy, _, rfl, rfl, ?_⟩
  refine hasCopy_of_perform (q := .vacateHL none) (a := false) rfl hmatched ?_ rfl hlive hcopy
  rintro p ⟨⟩
  exact htwo

/-- Results 1 and 2 are in `l` and `h`, and of the work registers only `b` is empty. The current
triple needs none of the five results. -/
def twoByteState : State where
  triples :=
    [{ id := 6, lhs := .var "x", op := .inv },
      { id := 7, lhs := .temp 1, op := .xor, rhs := some (.temp 2) },
      { id := 8, lhs := .temp 3, op := .xor, rhs := some (.temp 4) },
      { id := 9, lhs := .temp 5, op := .inv }]
  symbols := { toList := [{ name := "x", width := .byte }], nodup := List.nodup_singleton _ }
  regs :=
    (((({} : RegisterFile).bind .h (.temp 2)).bind .l (.temp 1)).bind .c (.temp 3)).bind .d
      (.temp 4) |>.bind .e (.temp 5)
  pinned := [.var "x"]

/-- When HL is emptied, result 2 is moved to `b`, and then result 1 is moved there as well. -/
theorem vacateHL_loses_byte :
    twoByteState.isLive (.temp 2) = true ∧ twoByteState.hasCopy (.temp 2) [] = true ∧
      ∃ s', vacateHL none twoByteState = .ok false s' ∧
        s'.code = [.mov .b .h, .mov .b .l] ∧ s'.hasCopy (.temp 2) [] = false :=
  ⟨by decide, by decide, _, rfl, rfl, by decide⟩

end Accumulator.Select
