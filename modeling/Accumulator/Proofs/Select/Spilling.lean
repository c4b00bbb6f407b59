import Accumulator.Proofs.Select.Agree

/-!
# Making room keeps machine and record in agreement

Every step that makes room leads from a machine that agrees with the state to another one, and the
registers it was asked for are empty afterwards. What a caller still relies on is said by `Keeps`:
the accumulator, a value in the save slot, and every register, but for those that were asked for,
that holds a value of the current triple. So a register chosen as a source before room is made for
its copy is still the source afterwards.
-/

namespace Accumulator.Select

open RegisterFile

variable {ρ : Valuation} {s s' s'' : State} {m m' m'' : Machine}

/-- A register in which no value of the current triple is recorded. -/
def State.Spares (s : State) (r : Reg) : Prop :=
  ∀ v ∈ s.pinned, (s.regs.get r).value? ≠ some v

/-- The accumulator and the save slot are as before; so is the record of the registers in `kept`,
and of those that hold a value of the current triple, unless they are in `lost`. -/
structure Keeps (lost kept : List Reg) (s : State) (m : Machine) (s' : State) (m' : Machine) :
    Prop where
  accumulator : m'.registers.a = m.registers.a
  slot : ∀ slot, s.spill = some slot → s'.spill = some slot
  record : ∀ r, r ≠ .m → r ∉ lost →
    (r ∈ kept ∨ ∃ v ∈ s.pinned, (s.regs.get r).value? = some v) → s'.regs.get r = s.regs.get r

/-- Two steps keep what both of them keep. The values of the current triple are the same for
both. -/
theorem Keeps.trans {lost kept : List Reg} (h : Keeps lost kept s m s' m')
    (hpinned : s'.pinned = s.pinned) (h' : Keeps lost kept s' m' s'' m'') :
    Keeps lost kept s m s'' m'' where
  accumulator := h'.accumulator.trans h.accumulator
  slot slot hslot := h'.slot slot (h.slot slot hslot)
  record r hr hlost hkept := by
    have heq := h.record r hr hlost hkept
    rw [h'.record r hr hlost (by rwa [heq, hpinned]), heq]

/-- Registers without a value of the current triple need not be listed as lost. -/
theorem Keeps.mono {lost lost' kept kept' : List Reg} (h : Keeps lost kept s m s' m')
    (hlost : ∀ r ∈ lost, r ∈ lost' ∨ r ∉ kept' ∧ s.Spares r) (hkept : ∀ r ∈ kept', r ∈ kept) :
    Keeps lost' kept' s m s' m' where
  accumulator := h.accumulator
  slot := h.slot
  record r hr hr' hor := by
    refine h.record r hr (fun hmem => ?_) (hor.imp_left (hkept r))
    obtain hmem' | ⟨hnot, hspares⟩ := hlost r hmem
    · exact hr' hmem'
    · obtain hmem' | ⟨v, hv, hvalue⟩ := hor
      · exact hnot hmem'
      · exact hspares v hv hvalue

theorem Keeps.refl {lost kept : List Reg} : Keeps lost kept s m s m :=
  ⟨rfl, fun _ h => h, fun _ _ _ _ => rfl⟩

/-- An update of the record of registers in `lost`. -/
theorem Keeps.of_record {lost kept : List Reg} {rf : RegisterFile}
    (hrf : ∀ r, r ≠ .m → r ∉ lost → rf.get r = s.regs.get r) :
    Keeps lost kept s m { s with regs := rf } m :=
  ⟨rfl, fun _ h => h, fun r hr hlost _ => hrf r hr hlost⟩

theorem spares_of_isFree {p : Pair} {high low : Reg} (hp : p.halves? = some (high, low))
    (h : s.isFree p = true) : s.Spares high ∧ s.Spares low := by
  simp only [State.isFree, hp, List.all_cons, List.all_nil, Bool.and_true, Bool.and_eq_true] at h
  refine ⟨?_, ?_⟩ <;> intro v hv hvalue
  · have := h.1
    simp [hvalue, State.isPinned, hv] at this
  · have := h.2
    simp [hvalue, State.isPinned, hv] at this

/-! ## Work registers -/

/-- The search for a work register keeps the best one so far, or takes the new one at its cost. -/
theorem cheaper_eq_some {best : Option (Nat × Reg)} {r q : Reg} {cost : Nat}
    (h : s.cheaper best r = some (cost, q)) :
    best = some (cost, q) ∨ q = r ∧ s.evictionCost? r = some cost := by
  unfold State.cheaper at h
  split at h
  next => exact .inl h
  next hcost =>
    cases h
    exact .inr ⟨rfl, hcost⟩
  next hcost =>
    split at h
    next =>
      cases h
      exact .inr ⟨rfl, hcost⟩
    next => exact .inl h

/-- So what the search ends with is one of the registers it has looked at. -/
theorem foldl_cheaper_eq_some {rs : List Reg} {best : Option (Nat × Reg)} {q : Reg} {cost : Nat}
    (h : rs.foldl s.cheaper best = some (cost, q)) :
    best = some (cost, q) ∨ q ∈ rs ∧ s.evictionCost? q = some cost := by
  induction rs generalizing best with
  | nil => exact .inl h
  | cons r rest ih =>
    obtain hbest | ⟨hmem, hcost⟩ := ih h
    · obtain hbest | ⟨rfl, hcost⟩ := cheaper_eq_some hbest
      · exact .inl hbest
      · exact .inr ⟨List.mem_cons_self, hcost⟩
    · exact .inr ⟨List.mem_cons_of_mem r hmem, hcost⟩

/-- A work register holds no value of the current triple. -/
theorem workRegister?_eq_some {exclude : List Reg} {r : Reg}
    (h : s.workRegister? exclude = some r) :
    r ∈ [Reg.b, .c, .d, .e] ∧ r ∉ exclude ∧ s.Spares r := by
  obtain ⟨⟨cost, q⟩, hfold, rfl⟩ := Option.map_eq_some_iff.mp h
  obtain hnone | ⟨hmem, hcost⟩ := foldl_cheaper_eq_some hfold
  · cases hnone
  · obtain ⟨hwork, hexclude⟩ := List.mem_filter.mp hmem
    refine ⟨hwork, by simpa using hexclude, ?_⟩
    intro v hv hvalue
    simp [State.evictionCost?, hvalue, State.isPinned, hv] at hcost

/-- What is forgotten along with a work register is neither HL nor a value of the current triple. -/
theorem not_mem_lost_of_spares {r q : Reg} (hmatched : s.regs.Matched)
    (hr : r ∈ [Reg.b, .c, .d, .e]) (hspares : s.Spares r)
    (hq : q ∈ [Reg.h, .l] ∨ ∃ v ∈ s.pinned, (s.regs.get q).value? = some v) :
    q ∉ s.regs.lost r := by
  intro hlost
  obtain hq | ⟨v, hv, hvalue⟩ := hq
  · simp only [List.mem_cons, List.not_mem_nil, or_false] at hq hr
    have hne : q ≠ r := by rintro rfl; grind
    obtain heq | ⟨-, p, hqp, hrp⟩ := mem_lost_iff.mp hlost
    · exact hne heq
    · have heq : q.pair? = r.pair? := hqp.trans hrp.symm
      obtain rfl | rfl := hq <;> obtain rfl | rfl | rfl | rfl := hr <;> cases heq
  · rw [hmatched.value?_eq_of_mem_lost hlost] at hvalue
    exact hspares v hv hvalue

/-- A work register is one of BC and DE, none of those that are excluded, and it is forgotten when
it is taken. -/
theorem after_takeWork {exclude : List Reg} :
    After (takeWork exclude) s fun r s' =>
      (r ∈ [Reg.b, .c, .d, .e] ∧ r ∉ exclude ∧ s.Spares r) ∧
        s' = { s with regs := s.regs.clear r } := by
  unfold takeWork
  simp only [after_bind, after_get]
  split
  next r hr =>
    rw [after_bind, after_record, after_pure]
    exact ⟨workRegister?_eq_some hr, rfl⟩
  next => exact after_reject _

/-- A byte is copied into a work register. The register has no value of the current triple, and
neither has its other half if it holds part of a word, so nothing that is read is lost. -/
theorem leads_keep {r q : Reg} {v : Value} (h : Agrees ρ s m) (hmatched : s.regs.Matched)
    (hr : r ∈ [Reg.b, .c, .d, .e]) (hspares : s.Spares r) (hq : q ≠ .m)
    (hv : s.regs.get q = .scalar v) :
    ∃ m', Leads ρ s m
        { s with code := s.code ++ [.mov r q], regs := (s.regs.clear r).bind r v } m' ∧
      Keeps [] [.h, .l] s m
        { s with code := s.code ++ [.mov r q], regs := (s.regs.clear r).bind r v } m' := by
  have hm : r ≠ .m := by rintro rfl; simp at hr
  have hcleared : Leads ρ s m { s with regs := s.regs.clear r } m :=
    .of_record h h.registers.clear hmatched.clear
  have hbyte : m.get q = Side.low.part (ρ v) := by
    rw [Machine.get_of_ne hq]
    exact h.registers.byte hq hv
  have hmoved := leads_setRegister (i := .mov r q) (x := m.get q) hcleared.agrees hcleared.matched
    hm (.mov hm hq) hbyte
  refine ⟨_, hcleared.trans hmoved, ?_, fun _ h => h, ?_⟩
  · show (m.registers.set r (m.get q)).a = m.registers.a
    exact Registers.get_set_of_ne _ _ hm (q := .a) (by decide) (by rintro rfl; simp at hr)
  · intro p hp _ hkept
    have hnot := not_mem_lost_of_spares hmatched hr hspares hkept
    have hne : p ≠ r := fun heq => hnot (heq ▸ mem_lost_self)
    -- The register was cleared before, so recording the byte breaks up no word.
    have hnot' : p ∉ (s.regs.clear r).lost r := by
      rw [mem_lost_iff, get_clear_self hm]
      simpa [Content.isHalf] using hne
    show ((s.regs.clear r).bind r v).get p = s.regs.get p
    rw [get_bind_of_not_mem hp hnot', get_clear_of_not_mem hp hnot]

/-- A byte is copied if it would be lost, and everything that the current triple reads stays where
it is. -/
theorem tracks_keepByte {r : Reg} {v : Value} {lost : List Reg} {afterCurrent : Bool}
    (h : Agrees ρ s m) (hmatched : s.regs.Matched) (hr : r ≠ .m) (hv : s.regs.get r = .scalar v) :
    Tracks ρ (keepByte v r lost afterCurrent) s m fun _ s' m' => Keeps [] [.h, .l] s m s' m' := by
  refine tracks_get (after_ite (fun _ => ?_) (fun _ => ?_))
  · simp only [after_bind, after_emit, after_record]
    refine after_takeWork.mono ?_
    rintro target s' ⟨⟨hwork, -, hspares⟩, rfl⟩
    exact leads_keep h hmatched hwork hspares hr hv
  · exact tracks_pure h hmatched .refl

/-- The same for whatever a register holds; half of a word is left alone. -/
theorem tracks_keepScalar {r : Reg} {lost : List Reg} {afterCurrent : Bool} (h : Agrees ρ s m)
    (hmatched : s.regs.Matched) (hr : r ≠ .m) :
    Tracks ρ (keepScalar r lost afterCurrent) s m fun _ s' m' => Keeps [] [.h, .l] s m s' m' := by
  refine tracks_get ?_
  split
  next hv => exact tracks_keepByte h hmatched hr hv
  next => exact tracks_pure h hmatched .refl

/-- A value in a register outside those that are lost is held without them. -/
theorem isHeld_of_register {r : Reg} {v : Value} {lost : List Reg} (hr : r ∈ Reg.all)
    (hlost : r ∉ lost) (hv : s.regs.get r = .scalar v) : s.isHeld v lost = true := by
  have hregister : (Reg.all.any fun r => !lost.contains r && s.regs.holds r v) = true := by
    refine List.any_eq_true.mpr ⟨r, hr, ?_⟩
    simp [hlost, RegisterFile.holds, hv]
  simp only [State.isHeld, hregister, Bool.true_or]

/-- If the value of the accumulator would be lost, it is in another register afterwards, and nothing
that is read is lost for it. -/
theorem tracks_saveAccumulator_keeping {afterCurrent : Bool} (h : Agrees ρ s m)
    (hmatched : s.regs.Matched) :
    Tracks ρ (saveAccumulator afterCurrent) s m fun _ s' m' => Keeps [] [.h, .l] s m s' m' ∧
      ∀ v, s.regs.get .a = .scalar v → s.mustKeep v [.a] afterCurrent = true →
        s'.isHeld v [.a] = true := by
  refine tracks_get ?_
  split
  next hvalue =>
    refine tracks_pure h hmatched ⟨.refl, fun v hv => ?_⟩
    rw [hv] at hvalue
    cases hvalue
  next v hvalue =>
    refine after_ite (fun _ => ?_)
      (fun hfree => tracks_pure h hmatched ⟨.refl, fun u hu hkeep => ?_⟩)
    case refine_2 =>
      rw [hu] at hvalue
      cases hvalue
      exact absurd hkeep hfree
    split
    next r hr =>
      -- The accumulator is in no pair, so what it holds is a byte.
      have hv : s.regs.get .a = .scalar v := by
        have ha := hmatched.a
        cases hcontent : s.regs.get .a with
        | empty => rw [hcontent] at hvalue; cases hvalue
        | scalar u => rw [hcontent] at hvalue; cases hvalue; rfl
        | half u side => rw [hcontent] at ha; cases ha
      obtain ⟨hwork, -, hspares⟩ := workRegister?_eq_some hr
      have hne : r ≠ .m ∧ r ∈ Reg.all ∧ r ∉ [Reg.a] := by
        cases r <;> first | decide | simp at hwork
      simp only [after_bind, after_emit, after_record]
      obtain ⟨m', hleads, hkeeps⟩ := leads_keep h hmatched hwork hspares (by decide) hv
      refine ⟨m', hleads, hkeeps, fun u hu _ => ?_⟩
      rw [hv] at hu
      cases hu
      exact isHeld_of_register hne.2.1 hne.2.2 (get_bind_self hne.1)
    next => exact after_reject _

/-- If the value of the accumulator would be lost, it is in another register afterwards. -/
theorem tracks_saveAccumulator {afterCurrent : Bool} (h : Agrees ρ s m)
    (hmatched : s.regs.Matched) :
    Tracks ρ (saveAccumulator afterCurrent) s m fun _ s' _ =>
      ∀ v, s.regs.get .a = .scalar v → s.mustKeep v [.a] afterCurrent = true →
        s'.isHeld v [.a] = true :=
  (tracks_saveAccumulator_keeping h hmatched).mono fun _ _ _ _ hsaved => hsaved.2

/-! ## Pairs -/

/-- A pair is forgotten, and nothing else changes. -/
theorem tracks_clearPair {p : Pair} {high low : Reg} (h : Agrees ρ s m) (hmatched : s.regs.Matched)
    (hp : p.halves? = some (high, low)) :
    Tracks ρ (record (·.clearPair p)) s m fun _ s' m' =>
      Keeps [high, low] [.h, .l] s m s' m' ∧ s'.regs.get high = .empty ∧
        s'.regs.get low = .empty := by
  refine (after_record _).mpr ⟨m, .of_record h h.registers.clearPair hmatched.clearPair,
    .of_record ?_, get_clearPair hp⟩
  intro r hr hlost
  simp only [List.mem_cons, List.not_mem_nil, or_false, not_or] at hlost
  exact get_clearPair_of_ne hp hr hlost.1 hlost.2

/-- A pair is copied to another, which then holds what the first one does. -/
theorem tracks_copyPair {source target : Pair} {sh sl th tl : Reg} (h : Agrees ρ s m)
    (hmatched : s.regs.Matched) (hsource : source.halves? = some (sh, sl))
    (htarget : target.halves? = some (th, tl)) :
    Tracks ρ (copyPair source target) s m fun _ s' m' =>
      Keeps [th, tl] [.h, .l] s m s' m' ∧ s'.regs.get th = s.regs.get sh ∧
        s'.regs.get tl = s.regs.get sl := by
  have hne := Pair.halves?_ne htarget
  unfold copyPair Tracks
  simp only [hsource, htarget, after_bind, after_emitAll, after_record]
  refine ⟨_, leads_copyPair h hmatched hsource htarget, ⟨?_, fun _ h => h, ?_⟩,
    get_copyPair hsource htarget⟩
  · show ((m.registers.set th _).set tl _).get .a = m.registers.get .a
    rw [Registers.get_set_of_ne _ _ hne.2.1 (by decide) hne.2.2.2.symm,
      Registers.get_set_of_ne _ _ hne.1 (by decide) hne.2.2.1.symm]
  · intro r hr hlost _
    simp only [List.mem_cons, List.not_mem_nil, or_false, not_or] at hlost
    exact get_copyPair_of_ne hsource htarget hr hlost.1 hlost.2

/-- DE and HL are exchanged. They are all that changes. -/
theorem tracks_exchange (h : Agrees ρ s m) (hmatched : s.regs.Matched) :
    Tracks ρ exchange s m fun _ s' m' =>
      Keeps [.d, .e, .h, .l] [] s m s' m' ∧
        s'.regs.get .h = s.regs.get .d ∧ s'.regs.get .l = s.regs.get .e := by
  unfold exchange Tracks
  simp only [after_bind, after_emit, after_record]
  refine ⟨_, leads_exchange h hmatched, ⟨rfl, fun _ h => h, ?_⟩, rfl, rfl⟩
  intro r hr hlost _
  cases r <;> first | rfl | simp at hlost

/-- A pair is pushed into the empty save slot, and keeps its value. -/
theorem tracks_pushSpill {p : Pair} {v : Value} (h : Agrees ρ s m) (hmatched : s.regs.Matched)
    (hspill : s.spill = none) (hv : s.regs.pairValue? p = some v) :
    Tracks ρ (pushSpill p v) s m fun _ s' m' =>
      Keeps [] [.h, .l] s m s' m' ∧ s'.isSaved v = true := by
  unfold pushSpill Tracks
  simp only [after_bind, after_get, after_emit, after_modify]
  refine ⟨_, leads_push h hmatched hspill hv s.code.length, ⟨rfl, ?_, fun _ _ _ _ => rfl⟩,
    by simp [State.isSaved]⟩
  intro slot hslot
  rw [hspill] at hslot
  cases hslot

/-- What an answer about HL means: HL holds the value about to be loaded, or `P`. -/
def Answers (incoming : Option Value) (P : State → Machine → Prop) :
    Bool → State → Machine → Prop
  | true, s', _ => ∃ v, incoming = some v ∧ s'.regs.pairValue? .h = some v
  | false, s', m' => P s' m'

/-- HL is pushed into the save slot. If the slot holds the value that is to be loaded, the two are
exchanged, and HL has that value. -/
theorem tracks_spillHL {v : Value} {incoming : Option Value} (h : Agrees ρ s m)
    (hmatched : s.regs.Matched) (hv : s.regs.pairValue? .h = some v) :
    Tracks ρ (spillHL v incoming) s m
      (Answers incoming fun s' m' => Keeps [] [.h, .l] s m s' m' ∧ s'.isSaved v = true) := by
  refine tracks_get ?_
  split
  next hspill =>
    refine (tracks_pushSpill h hmatched hspill hv).bind fun _ s' m' hleads hkeeps => ?_
    exact tracks_pure hleads.agrees hleads.matched hkeeps
  next slot hspill =>
    refine after_ite (fun hincoming => ?_) (fun _ => after_reject _)
    simp only [after_bind, after_emit, after_modify, after_record, after_pure]
    obtain ⟨m', hleads⟩ := leads_xthl h hmatched hspill hv
    exact ⟨m', hleads, slot.value, hincoming, (pairValue?_eq_some rfl).mpr (get_bindPair rfl)⟩

/-- HL is empty, and the rest is kept. -/
def VacatedHL (s : State) (m : Machine) (s' : State) (m' : Machine) : Prop :=
  Keeps [.h, .l] [] s m s' m' ∧ s'.regs.get .h = .empty ∧ s'.regs.get .l = .empty

/-- Once its value is safe, HL is forgotten. -/
theorem tracks_forgetHL {incoming : Option Value} (h : Leads ρ s m s' m')
    (hkeeps : Keeps [.h, .l] [] s m s' m') :
    Tracks ρ (do record (·.clearPair .h); return false) s' m'
      (Answers incoming (VacatedHL s m)) := by
  refine (tracks_clearPair (p := .h) h.agrees h.matched rfl).bind fun _ s'' m'' hleads hclear => ?_
  refine tracks_pure hleads.agrees hleads.matched ⟨?_, hclear.2⟩
  exact hkeeps.trans h.frame.pinned (hclear.1.mono (fun _ h => .inl h) (by simp))

/-- HL is made safe to overwrite, and is empty then. The other answer is that it holds the value to
be loaded, because it did before or because it was exchanged with the save slot. -/
theorem tracks_vacateHL (incoming : Option Value) (h : Agrees ρ s m) (hmatched : s.regs.Matched) :
    Tracks ρ (vacateHL incoming) s m (Answers incoming (VacatedHL s m)) := by
  refine tracks_get ?_
  split
  next v hv =>
    refine after_ite (fun hincoming => ?_) (fun _ => after_ite (fun _ => ?_) (fun _ => ?_))
    · exact tracks_pure h hmatched ⟨v, hincoming, hv⟩
    · -- A free pair holds no value of the current triple, so it may be overwritten.
      refine after_ite (fun hfree => ?_) (fun _ => after_ite (fun hfree => ?_) (fun _ => ?_))
      · obtain ⟨hd, he⟩ := spares_of_isFree rfl hfree
        refine (tracks_exchange h hmatched).bind fun _ s' m' hleads hkeeps => ?_
        refine tracks_forgetHL hleads (hkeeps.1.mono ?_ (by simp))
        simp [hd, he]
      · obtain ⟨hb, hc⟩ := spares_of_isFree rfl hfree
        refine (tracks_copyPair h hmatched rfl rfl).bind fun _ s' m' hleads hkeeps => ?_
        refine tracks_forgetHL hleads (hkeeps.1.mono ?_ (by simp))
        simp [hb, hc]
      · refine (tracks_spillHL h hmatched hv).bind fun answer s' m' hleads hanswer => ?_
        cases answer with
        | true => exact tracks_pure hleads.agrees hleads.matched hanswer
        | false => exact tracks_forgetHL hleads (hanswer.1.mono (by simp) (by simp))
    · exact tracks_forgetHL (.refl h hmatched) .refl
  next =>
    refine (tracks_keepScalar h hmatched (by decide)).bind fun _ s₁ m₁ hleads₁ hkeeps₁ => ?_
    refine (tracks_keepScalar hleads₁.agrees hleads₁.matched (by decide)).bind
      fun _ s₂ m₂ hleads₂ hkeeps₂ => ?_
    have hkeeps := hkeeps₁.trans hleads₁.frame.pinned hkeeps₂
    exact tracks_forgetHL (hleads₁.trans hleads₂) (hkeeps.mono (by simp) (by simp))

/-- Without a value to be loaded, HL is empty afterwards. -/
theorem tracks_vacateHL_none (h : Agrees ρ s m) (hmatched : s.regs.Matched) :
    Tracks ρ (vacateHL none) s m fun _ => VacatedHL s m := by
  refine (tracks_vacateHL none h hmatched).mono fun answer s' m' _ hanswer => ?_
  cases answer with
  | true =>
    obtain ⟨v, hv, -⟩ := hanswer
    cases hv
  | false => exact hanswer

/-- A word in a pair outside the registers that are lost is held without them. -/
theorem isHeld_of_pairValue? {p : Pair} {high low : Reg} {v : Value} {lost : List Reg}
    (hp : p.halves? = some (high, low)) (hhigh : high ∉ lost) (hlow : low ∉ lost)
    (hv : s.regs.pairValue? p = some v) : s.isHeld v lost = true := by
  have hmem : p ∈ searchOrder := by
    cases p <;> first | decide | cases hp
  simp only [State.isHeld, Bool.or_eq_true]
  refine .inl (.inr (List.any_eq_true.mpr ⟨p, hmem, ?_⟩))
  simp [hp, hhigh, hlow, pairMatch?, (pairValue?_eq_some hp).mp hv]

theorem isHeld_of_isSaved {v : Value} {lost : List Reg} (h : s.isSaved v = true) :
    s.isHeld v lost = true := by
  simp only [State.isHeld, h, Bool.or_true]

/-- What is recorded of HL is as before. -/
def SameHL (s s' : State) : Prop :=
  s'.regs.get .h = s.regs.get .h ∧ s'.regs.get .l = s.regs.get .l

/-- With the same record of its halves HL holds the same word. -/
theorem SameHL.pairValue? (h : SameHL s s') : s'.regs.pairValue? .h = s.regs.pairValue? .h := by
  simp only [RegisterFile.pairValue?, Pair.halves?, h.1, h.2]

/-- A step that does not lose HL keeps what is recorded of it. -/
theorem Keeps.sameHL {lost : List Reg} (h : Keeps lost [.h, .l] s m s' m') (hhigh : .h ∉ lost)
    (hlow : .l ∉ lost) : SameHL s s' :=
  ⟨h.record .h (by decide) hhigh (.inl (by simp)), h.record .l (by decide) hlow (.inl (by simp))⟩

/-- If the word in HL is needed later, it is elsewhere afterwards, and still in HL. -/
theorem tracks_preserveHL_keeping (h : Agrees ρ s m) (hmatched : s.regs.Matched) :
    Tracks ρ preserveHL s m fun _ s' _ => SameHL s s' ∧
      ∀ v, s.regs.pairValue? .h = some v → s.mustKeep v [.h, .l] true = true →
        s'.isHeld v [.h, .l] = true := by
  refine tracks_get ?_
  split
  next v hv =>
    -- There is one value to speak of, the one in HL.
    suffices hheld : Tracks ρ _ s m fun _ s' _ => SameHL s s' ∧
        (s.mustKeep v [.h, .l] true = true → s'.isHeld v [.h, .l] = true) by
      refine hheld.mono fun _ s' m' _ hheld => ⟨hheld.1, fun u hu => ?_⟩
      obtain rfl : u = v := Option.some.inj (hu.symm.trans hv)
      exact hheld.2
    have hhalves := (pairValue?_eq_some (p := .h) rfl).mp hv
    refine after_ite (fun _ => ?_) (fun hfree => tracks_pure h hmatched ⟨⟨rfl, rfl⟩, fun hkeep =>
      absurd hkeep hfree⟩)
    refine after_ite (fun _ => ?_) (fun _ => after_ite (fun _ => ?_) (fun _ => ?_))
    · refine (tracks_copyPair h hmatched rfl rfl).mono fun _ s' _ _ hcopied => ?_
      refine ⟨hcopied.1.sameHL (by decide) (by decide), fun _ => ?_⟩
      refine isHeld_of_pairValue? (p := .d) rfl (by decide) (by decide) ?_
      rw [pairValue?_eq_some rfl, hcopied.2.1, hcopied.2.2]
      exact hhalves
    · refine (tracks_copyPair h hmatched rfl rfl).mono fun _ s' _ _ hcopied => ?_
      refine ⟨hcopied.1.sameHL (by decide) (by decide), fun _ => ?_⟩
      refine isHeld_of_pairValue? (p := .b) rfl (by decide) (by decide) ?_
      rw [pairValue?_eq_some rfl, hcopied.2.1, hcopied.2.2]
      exact hhalves
    · refine (tracks_spillHL h hmatched hv).bind fun answer s' m' hleads hanswer => ?_
      refine tracks_pure hleads.agrees hleads.matched ?_
      cases answer with
      | true =>
        obtain ⟨u, hu, -⟩ := hanswer
        cases hu
      | false =>
        exact ⟨hanswer.1.sameHL (by decide) (by decide), fun _ => isHeld_of_isSaved hanswer.2⟩
  next hnone =>
    refine (tracks_keepScalar h hmatched (by decide)).bind fun _ s' m' hleads hkeeps => ?_
    refine (tracks_keepScalar hleads.agrees hleads.matched (by decide)).mono
      fun _ _ _ _ hkeeps' => ⟨?_, fun v hv => ?_⟩
    · exact (hkeeps.trans hleads.frame.pinned hkeeps').sameHL (by decide) (by decide)
    · rw [hv] at hnone
      cases hnone

/-- If the word in HL is needed later, it is elsewhere afterwards. -/
theorem tracks_preserveHL (h : Agrees ρ s m) (hmatched : s.regs.Matched) :
    Tracks ρ preserveHL s m fun _ s' _ =>
      ∀ v, s.regs.pairValue? .h = some v → s.mustKeep v [.h, .l] true = true →
        s'.isHeld v [.h, .l] = true :=
  (tracks_preserveHL_keeping h hmatched).mono fun _ _ _ _ hpreserved => hpreserved.2

/-- The registers that making room in a pair never touches: those of HL, for BC. -/
def untouchedBy : Pair → List Reg
  | .b => [.h, .l]
  | _ => []

section VacatePair

variable {p : Pair} {high low : Reg} {kept : List Reg}

/-- The word of DE or BC is moved. It goes to a pair that is free, or to the save slot, so nothing
that is read is lost; HL is touched only for an exchange with DE. -/
theorem tracks_movePairAside {v : Value} (h : Agrees ρ s m)
    (hmatched : s.regs.Matched) (hp : p.halves? = some (high, low))
    (hkept : ∀ r ∈ kept, r ∈ [Reg.h, .l]) (hexchange : p = .d → s.isFree .h = true → kept = [])
    (hv : s.regs.pairValue? p = some v) :
    Tracks ρ (movePairAside p v) s m fun _ s' m' => Keeps [high, low] kept s m s' m' := by
  refine tracks_get (after_ite (fun hfree => ?_) (fun _ => after_ite (fun hfree => ?_)
    (fun _ => after_ite (fun hspill => ?_) (fun _ => after_reject _))))
  · -- The other of DE and BC is free, and it is disjoint from HL.
    have hother : ∃ th tl, (if p = .d then Pair.b else .d).halves? = some (th, tl) ∧
        th ∉ [Reg.h, .l] ∧ tl ∉ [Reg.h, .l] := by
      split
      · exact ⟨.b, .c, rfl, by decide, by decide⟩
      · exact ⟨.d, .e, rfl, by decide, by decide⟩
    obtain ⟨th, tl, htarget, hth, htl⟩ := hother
    obtain ⟨hspareh, hsparel⟩ := spares_of_isFree htarget hfree
    refine (tracks_copyPair h hmatched hp htarget).mono fun _ s' m' _ hkeeps => ?_
    refine hkeeps.1.mono ?_ hkept
    intro r hr
    simp only [List.mem_cons, List.not_mem_nil, or_false] at hr
    obtain rfl | rfl := hr
    · exact .inr ⟨fun hmem => hth (hkept _ hmem), hspareh⟩
    · exact .inr ⟨fun hmem => htl (hkept _ hmem), hsparel⟩
  · -- DE moves into HL, which is free and then empty.
    obtain ⟨rfl, hfree⟩ := hfree
    obtain rfl := hexchange rfl hfree
    cases hp
    obtain ⟨hspareh, hsparel⟩ := spares_of_isFree rfl hfree
    refine (tracks_vacateHL_none h hmatched).bind fun _ s₁ m₁ hleads₁ hvacated => ?_
    refine (tracks_exchange hleads₁.agrees hleads₁.matched).mono fun _ s₂ m₂ _ hkeeps => ?_
    have hspare₁ : s₁.Spares .h ∧ s₁.Spares .l := by
      constructor <;> intro v _ hvalue
      · rw [hvacated.2.1] at hvalue
        cases hvalue
      · rw [hvacated.2.2] at hvalue
        cases hvalue
    refine (hvacated.1.mono ?_ (by simp)).trans hleads₁.frame.pinned (hkeeps.1.mono ?_ (by simp))
    · simp [hspareh, hsparel]
    · simp [hspare₁]
  · have hnone : s.spill = none := by simpa using hspill
    exact (tracks_pushSpill h hmatched hnone hv).mono fun _ _ _ _ hkeeps =>
      hkeeps.1.mono (by simp) hkept

/-- DE or BC is empty afterwards. HL is touched only if it is free and DE is to be vacated. -/
theorem tracks_vacatePair_keeping (h : Agrees ρ s m) (hmatched : s.regs.Matched)
    (hp : p.halves? = some (high, low)) (hkept : ∀ r ∈ kept, r ∈ [Reg.h, .l])
    (hexchange : p = .d → s.isFree .h = true → kept = []) :
    Tracks ρ (vacatePair p) s m fun _ s' m' =>
      Keeps [high, low] kept s m s' m' ∧ s'.regs.get high = .empty ∧ s'.regs.get low = .empty := by
  have hne := Pair.halves?_ne hp
  -- Whatever was done first, the pair is forgotten in the end.
  have hforget : ∀ {s' m'}, Leads ρ s m s' m' → Keeps [high, low] kept s m s' m' →
      Tracks ρ (record (·.clearPair p)) s' m' fun _ s'' m'' =>
        Keeps [high, low] kept s m s'' m'' ∧ s''.regs.get high = .empty ∧
          s''.regs.get low = .empty := by
    intro s' m' hleads hkeeps
    refine (tracks_clearPair hleads.agrees hleads.matched hp).mono fun _ s'' m'' _ hclear => ?_
    exact ⟨hkeeps.trans hleads.frame.pinned (hclear.1.mono (fun _ h => .inl h) hkept), hclear.2⟩
  unfold vacatePair
  simp only [hp]
  refine tracks_get ?_
  split
  next v hv =>
    refine after_ite (fun _ => ?_) (fun _ => hforget (.refl h hmatched) .refl)
    exact (tracks_movePairAside h hmatched hp hkept hexchange hv).bind fun _ s' m' hleads hkeeps =>
      hforget hleads hkeeps
  next =>
    refine (tracks_keepScalar h hmatched hne.1).bind fun _ s₁ m₁ hleads₁ hkeeps₁ => ?_
    refine (tracks_keepScalar hleads₁.agrees hleads₁.matched hne.2.1).bind
      fun _ s₂ m₂ hleads₂ hkeeps₂ => ?_
    exact hforget (hleads₁.trans hleads₂)
      ((hkeeps₁.trans hleads₁.frame.pinned hkeeps₂).mono (by simp) hkept)

/-- DE or BC is empty afterwards. For BC, HL is not touched at all. -/
theorem tracks_vacatePair (h : Agrees ρ s m) (hmatched : s.regs.Matched)
    (hp : p.halves? = some (high, low)) :
    Tracks ρ (vacatePair p) s m fun _ s' m' =>
      Keeps [high, low] (untouchedBy p) s m s' m' ∧ s'.regs.get high = .empty ∧
        s'.regs.get low = .empty := by
  refine tracks_vacatePair_keeping h hmatched hp ?_ ?_
  · cases p <;> simp [untouchedBy]
  · rintro rfl _
    rfl

end VacatePair

/-- A register is empty afterwards, together with its other half if it held part of a word. -/
theorem tracks_vacateReg {r : Reg} (h : Agrees ρ s m) (hmatched : s.regs.Matched) (hr : r ≠ .m) :
    Tracks ρ (vacateReg r) s m fun _ s' m' =>
      Keeps (s.regs.lost r) (r.pair?.elim [] untouchedBy) s m s' m' ∧
        s'.regs.get r = .empty := by
  -- Whatever was done first, the register is forgotten in the end. If a half has come there
  -- meanwhile, the other half was no value to be kept.
  have hforget : ∀ {s' m'}, Leads ρ s m s' m' →
      Keeps (s.regs.lost r) (r.pair?.elim [] untouchedBy) s m s' m' →
      Tracks ρ (record (·.clear r)) s' m' fun _ s'' m'' =>
        Keeps (s.regs.lost r) (r.pair?.elim [] untouchedBy) s m s'' m'' ∧
          s''.regs.get r = .empty := by
    intro s' m' hleads hkeeps
    refine (after_record _).mpr ⟨m', .of_record hleads.agrees hleads.agrees.registers.clear
      hleads.matched.clear, ⟨hkeeps.accumulator, hkeeps.slot, ?_⟩, get_clear_self hr⟩
    intro q hq hlost hkept
    have heq := hkeeps.record q hq hlost hkept
    refine (get_clear_of_not_mem hq fun hmem => hlost ?_).trans heq
    obtain rfl | ⟨hhalf, p, hqp, hrp⟩ := mem_lost_iff.mp hmem
    · exact mem_lost_self
    · rw [← hleads.matched.isHalf_eq hqp hrp, heq, hmatched.isHalf_eq hqp hrp] at hhalf
      exact mem_lost_iff.mpr (.inr ⟨hhalf, p, hqp, hrp⟩)
  -- A register with half of a word loses both registers of its pair.
  have hpairs : ∀ {p high low}, (s.regs.get r).isHalf = true → r.pair? = some p →
      p.halves? = some (high, low) → ∀ q ∈ [high, low], q ∈ s.regs.lost r := by
    intro p high low hhalf hpair hp q hq
    refine mem_lost_iff.mpr (.inr ⟨hhalf, p, ?_, hpair⟩)
    simp only [List.mem_cons, List.not_mem_nil, or_false] at hq
    cases p <;> cases hp <;> obtain rfl | rfl := hq <;> rfl
  refine tracks_get ?_
  split
  next => exact hforget (.refl h hmatched) .refl
  next u side hcontent =>
    have hhalf : (s.regs.get r).isHalf = true := by rw [hcontent]; rfl
    split
    next => exact hforget (.refl h hmatched) .refl
    next hpair =>
      refine (tracks_vacateHL_none h hmatched).bind fun _ s' m' hleads hvacated => ?_
      refine hforget hleads (hvacated.1.mono (fun q hq => .inl (hpairs hhalf hpair rfl q hq)) ?_)
      simp [hpair, untouchedBy]
    next p _ hpair =>
      obtain ⟨high, low, hp⟩ : ∃ high low, p.halves? = some (high, low) := by
        cases r <;> cases hpair <;> exact ⟨_, _, rfl⟩
      refine (tracks_vacatePair h hmatched hp).bind fun _ s' m' hleads hkeeps => ?_
      refine hforget hleads (hkeeps.1.mono (fun q hq => .inl (hpairs hhalf hpair hp q hq)) ?_)
      simp [hpair]
  next v hcontent =>
    refine (tracks_keepByte h hmatched hr hcontent).bind fun _ s' m' hleads hkeeps => ?_
    refine hforget hleads (hkeeps.mono (by simp) ?_)
    cases r <;> simp [Reg.pair?, untouchedBy]

/-- The saved word is popped into a pair, and is recorded there. -/
theorem tracks_popSpill {p : Pair} {high low : Reg} {slot : Spill} (h : Agrees ρ s m)
    (hmatched : s.regs.Matched) (hp : p.halves? = some (high, low))
    (hslot : s.spill = some slot) :
    Tracks ρ (popSpill p) s m fun _ s' _ => s'.regs.pairValue? p = some slot.value := by
  refine tracks_get ?_
  rw [hslot]
  unfold Tracks
  simp only [after_bind, after_emit, after_modify, after_record]
  obtain ⟨m', hleads⟩ := leads_pop h hmatched hslot hp
  exact ⟨m', hleads, (pairValue?_eq_some hp).mpr (get_bindPair hp)⟩

end Accumulator.Select
