import Accumulator.Proofs.Select.Agree
import Accumulator.Proofs.Select.Operation

/-!
# Selecting with nothing to save

As long as the registers hold only what memory or an immediate can provide again, no step has
anything to save. The record is *light* then, and steps that make room succeed without code.
`Yields` says of a step that it succeeds, and what its code does: code of a bounded length that
computes in registers.
-/

namespace Accumulator

theorem Reg.mem_all {r : Reg} (hr : r ≠ .m) : r ∈ Reg.all := by
  cases r <;> first | decide | exact absurd rfl hr

theorem Reg.ne_of_mem_all {r : Reg} (h : r ∈ Reg.all) : r ≠ .m := by
  rintro rfl
  revert h
  decide

namespace RegisterFile

variable {rf : RegisterFile} {r : Reg} {p : Pair} {v : Value}

/-- All that is recorded of some registers can be loaded again. -/
def LightAt (rf : RegisterFile) (regs : List Reg) : Prop :=
  ∀ r ∈ regs, ∀ v, (rf.get r).value? = some v → Select.reloadable v = true

/-- All that is recorded can be loaded again. -/
def Light (rf : RegisterFile) : Prop :=
  rf.LightAt Reg.all

theorem Light.at (h : rf.Light) {regs : List Reg} (hregs : .m ∉ regs) : rf.LightAt regs :=
  fun r hr => h r (Reg.mem_all fun hm => hregs (hm ▸ hr))

theorem light_empty : Light {} := by
  intro r hr v hv
  cases r <;> cases hv

/-- A record stays light if a value is recorded that can be loaded again. -/
theorem Light.put {c : Content} (h : rf.Light)
    (hc : ∀ v, c.value? = some v → Select.reloadable v = true) : (rf.put r c).Light := by
  intro q hq v hv
  by_cases hr : r = .m
  · subst hr
    exact h q hq v hv
  · rw [get_put hr (Reg.ne_of_mem_all hq)] at hv
    split at hv
    · exact hc v hv
    · exact h q hq v hv

theorem Light.clear (h : rf.Light) : (rf.clear r).Light := by
  intro q hq v hv
  by_cases hr : r = .m
  · subst hr
    exact h q hq v hv
  · rw [get_clear hr (Reg.ne_of_mem_all hq)] at hv
    split at hv
    · cases hv
    · exact h q hq v hv

theorem Light.clearAll (h : rf.Light) (regs : List Reg) :
    (regs.foldl (·.clear ·) rf).Light := by
  induction regs generalizing rf with
  | nil => exact h
  | cons r rest ih => exact ih h.clear

theorem Light.clearPair (h : rf.Light) : (rf.clearPair p).Light := by
  unfold RegisterFile.clearPair
  split
  · exact h.clear.clear
  · exact h

theorem Light.bind (h : rf.Light) (hv : Select.reloadable v = true) : (rf.bind r v).Light := by
  unfold RegisterFile.bind
  split
  · exact h
  · refine h.clear.put ?_
    rintro u ⟨⟩
    exact hv

theorem Light.bindPair (h : rf.Light) (hv : Select.reloadable v = true) :
    (rf.bindPair p v).Light := by
  unfold RegisterFile.bindPair
  split
  · refine (h.clear.clear.put ?_).put ?_
    · rintro u ⟨⟩
      exact hv
    · rintro u ⟨⟩
      exact hv
  · exact h

theorem Light.bindExtended (h : rf.Light) (hv : Select.reloadable v = true) :
    (rf.bindExtended p v).Light := by
  unfold RegisterFile.bindExtended
  split
  · exact (h.bind rfl).bind hv
  · exact h

/-- A copied word was in the record before, so it can be loaded again. -/
theorem Light.copyPair {source target : Pair} (h : rf.Light) :
    (rf.copyPair source target).Light := by
  unfold RegisterFile.copyPair
  split
  next sh sl th tl hsource htarget =>
    have hne := Pair.halves?_ne hsource
    exact (h.put (h sh (Reg.mem_all hne.1))).put (h sl (Reg.mem_all hne.2.1))
  next => exact h

/-! ## Registers that stay empty -/

variable {q : Reg}

theorem get_clear_of_empty (hq : q ≠ .m) (h : rf.get q = .empty) : (rf.clear r).get q = .empty := by
  by_cases hr : r = .m
  · rwa [RegisterFile.clear, if_pos hr]
  · rw [get_clear hr hq, h, ite_self]

theorem get_clearAll_of_empty (hq : q ≠ .m) (h : rf.get q = .empty) (regs : List Reg) :
    (regs.foldl (·.clear ·) rf).get q = .empty := by
  induction regs generalizing rf with
  | nil => exact h
  | cons r rest ih => exact ih (get_clear_of_empty hq h)

/-- Recording a byte leaves other empty registers empty, even if it breaks up a word. -/
theorem get_bind_of_empty (hq : q ≠ .m) (hne : q ≠ r) (h : rf.get q = .empty) :
    (rf.bind r v).get q = .empty := by
  unfold RegisterFile.bind
  split
  · exact h
  next hr => rw [get_put_of_ne hr hq hne, get_clear_of_empty hq h]

end RegisterFile

namespace Select

open Machine RegisterFile

variable {α β : Type} {data : Word → Prop} {quiet : Bool} {s : State} {m m' : Machine}

/-! ## Steps that succeed -/

/-- The step succeeds, with any code before it. Its own code is tame, has at most `n` instructions
and changes the registers, and for the answer, the record and the registers afterwards `Q` holds. -/
def Yields (data : Word → Prop) (quiet : Bool) (n : Nat) (x : Selecting α) (s : State)
    (regs : RegisterFile) (m : Machine) (Q : α → RegisterFile → Registers Byte → Prop) : Prop :=
  ∀ code, ∃ a more regs' rs,
    x { s with code, regs } = .ok a { s with code := code ++ more, regs := regs' } ∧
      more.all (Instr.isTame quiet) = true ∧ more.length ≤ n ∧
      Computes data more m rs ∧ Q a regs' rs

namespace Yields

variable {n k : Nat} {x : Selecting α} {f : α → Selecting β} {regs regs' : RegisterFile} {a : α}
  {rs : Registers Byte} {Q : α → RegisterFile → Registers Byte → Prop}
  {R : β → RegisterFile → Registers Byte → Prop}

/-- Steps one after another. The lengths add up, and the second step starts with the registers that
the first one leaves. -/
theorem bind (hx : Yields data quiet n x s regs m Q)
    (hf : ∀ a regs' m', Changes data m'.registers m m' → Q a regs' m'.registers →
      Yields data quiet k (f a) s regs' m' R) :
    Yields data quiet (n + k) (x >>= f) s regs m R := by
  intro code
  obtain ⟨a, front, regs', rs, hx, htame, hlength, ⟨m₁, hwalks, hchanges⟩, hQ⟩ := hx code
  obtain rfl := hchanges.registers
  obtain ⟨b, rest, regs'', rs', hf, htame', hlength', ⟨m₂, hwalks', hchanges'⟩, hR⟩ :=
    hf a regs' m₁ hchanges hQ (code ++ front)
  refine ⟨b, front ++ rest, regs'', rs', ?_, ?_, ?_,
    ⟨m₂, hwalks.append hwalks', hchanges.trans hchanges'⟩, hR⟩
  · show EStateM.bind x f _ = _
    rw [EStateM.bind, hx, ← List.append_assoc]
    exact hf
  · rw [List.all_append, htame, htame']
    rfl
  · rw [List.length_append]
    omega

/-- The bound can be raised, and the outcome can be weakened. -/
theorem mono (h : Yields data quiet n x s regs m Q) (hn : n ≤ k)
    {P : α → RegisterFile → Registers Byte → Prop} (himp : ∀ a regs rs, Q a regs rs → P a regs rs) :
    Yields data quiet k x s regs m P := by
  intro code
  obtain ⟨a, more, regs', rs, hx, htame, hlength, hcomputes, hQ⟩ := h code
  exact ⟨a, more, regs', rs, hx, htame, Nat.le_trans hlength hn, hcomputes, himp a regs' rs hQ⟩

theorem le (h : Yields data quiet n x s regs m Q) (hn : n ≤ k) :
    Yields data quiet k x s regs m Q :=
  h.mono hn fun _ _ _ => id

/-- A step that does the same as another one. -/
theorem of_eq {y : Selecting α} (h : Yields data quiet n y s regs m Q)
    (heq : ∀ code, x { s with code, regs } = y { s with code, regs }) :
    Yields data quiet n x s regs m Q := by
  intro code
  rw [heq]
  exact h code

/-- A step that looks at the state first. -/
theorem get_bind {f : State → Selecting β}
    (h : ∀ code, Yields data quiet n (f { s with code, regs }) s regs m R) :
    Yields data quiet n (MonadState.get >>= f) s regs m R :=
  fun code => h code code

/-- A step without code. -/
theorem of_record (hx : ∀ code, x { s with code, regs } = .ok a { s with code, regs := regs' })
    (h : Q a regs' m.registers) : Yields data quiet n x s regs m Q := by
  intro code
  refine ⟨a, [], regs', m.registers, ?_, rfl, Nat.zero_le n, .nil data m, h⟩
  rw [hx, List.append_nil]

theorem pure (h : Q a regs m.registers) : Yields data quiet n (Pure.pure a) s regs m Q :=
  of_record (fun _ => rfl) h

/-- A step without code before others. -/
theorem record_bind (hx : ∀ code, x { s with code, regs } = .ok a { s with code, regs := regs' })
    (h : Yields data quiet n (f a) s regs' m R) : Yields data quiet n (x >>= f) s regs m R := by
  intro code
  have hrun : (x >>= f) { s with code, regs } = f a { s with code, regs := regs' } := by
    show EStateM.bind x f _ = _
    rw [EStateM.bind, hx]
  rw [hrun]
  exact h code

theorem record {g : RegisterFile → RegisterFile} {Q : Unit → RegisterFile → Registers Byte → Prop}
    (h : Q () (g regs) m.registers) : Yields data quiet n (record g) s regs m Q :=
  of_record (fun _ => rfl) h

theorem update_bind {g : RegisterFile → RegisterFile} {f : Unit → Selecting β}
    (h : Yields data quiet n (f ()) s (g regs) m R) :
    Yields data quiet n (Select.record g >>= f) s regs m R :=
  record_bind (fun _ => rfl) h

/-- Instructions are added that compute in registers, and the bound is their number. -/
theorem emitAll {is : List Instr} {Q : Unit → RegisterFile → Registers Byte → Prop}
    (htame : is.all (Instr.isTame quiet) = true) (hcomputes : Computes data is m rs)
    (h : Q () regs rs) :
    Yields data quiet is.length (emitAll is) s regs m Q :=
  fun _ => ⟨(), is, regs, rs, rfl, htame, Nat.le_refl _, hcomputes, h⟩

/-- The same before another step, which starts with the registers that the instructions leave. -/
theorem emitAll_bind {is : List Instr} {f : Unit → Selecting β}
    (htame : is.all (Instr.isTame quiet) = true) (hcomputes : Computes data is m rs)
    (h : ∀ m', m'.registers = rs → Changes data m'.registers m m' →
      Yields data quiet n (f ()) s regs m' R) :
    Yields data quiet (is.length + n) (Select.emitAll is >>= f) s regs m R := by
  refine bind (Q := fun _ regs' rs' => regs' = regs ∧ rs' = rs)
    (emitAll htame hcomputes ⟨rfl, rfl⟩) ?_
  rintro _ regs m' hchanges ⟨rfl, hrs⟩
  exact h m' hrs hchanges

theorem emit {i : Instr} {Q : Unit → RegisterFile → Registers Byte → Prop}
    (htame : Instr.isTame quiet i = true) (hcomputes : Computes data [i] m rs) (h : Q () regs rs) :
    Yields data quiet 1 (emit i) s regs m Q :=
  emitAll (by simpa using htame) hcomputes h

theorem emit_bind {i : Instr} {f : Unit → Selecting β} (htame : Instr.isTame quiet i = true)
    (hcomputes : Computes data [i] m rs)
    (h : ∀ m', m'.registers = rs → Changes data m'.registers m m' →
      Yields data quiet n (f ()) s regs m' R) :
    Yields data quiet (1 + n) (Select.emit i >>= f) s regs m R :=
  emitAll_bind (by simpa using htame) hcomputes h

end Yields

/-! ## Making room -/

section Run

variable {x : Selecting α} {f : α → Selecting β} {a : α} {s' : State}

/-- If the first step succeeds, the second continues from its state. -/
theorem bind_run (hx : x s = .ok a s') : (x >>= f) s = f a s' := by
  show EStateM.bind x f s = _
  rw [EStateM.bind, hx]

theorem get_run (f : State → Selecting β) : (MonadState.get >>= f) s = f s s := rfl

theorem emitAll_emitAll (front rest : List Instr) :
    (emitAll front >>= fun _ => emitAll rest : Selecting Unit) s = emitAll (front ++ rest) s := by
  show EStateM.Result.ok () { s with code := s.code ++ front ++ rest } = _
  rw [List.append_assoc]
  rfl

end Run

theorem mustKeep_of_reloadable {v : Value} {lost : List Reg} {afterCurrent : Bool}
    (h : reloadable v = true) : s.mustKeep v lost afterCurrent = false := by
  simp [State.mustKeep, State.hasCopy, h]

section Quiet

variable {regs : RegisterFile} {code : List Instr} {afterCurrent : Bool}

theorem keepByte_of_reloadable {v : Value} {r : Reg} {lost : List Reg}
    (h : reloadable v = true) : keepByte v r lost afterCurrent s = .ok () s := by
  rw [keepByte, get_run, mustKeep_of_reloadable h]
  rfl

/-- If the accumulator holds nothing of worth, saving it does nothing. -/
theorem saveAccumulator_of_light (h : regs.LightAt [.a]) :
    saveAccumulator afterCurrent { s with code, regs } = .ok () { s with code, regs } := by
  rw [saveAccumulator, get_run]
  cases hv : (regs.get .a).value? with
  | none => rfl
  | some v =>
    simp only [mustKeep_of_reloadable (h .a (by decide) v hv)]
    rfl

/-- If a register holds nothing of worth, keeping its byte does nothing. -/
theorem keepScalar_of_light {r : Reg} {watched lost : List Reg} (h : regs.LightAt watched)
    (hr : r ∈ watched) :
    keepScalar r lost afterCurrent { s with code, regs } = .ok () { s with code, regs } := by
  rw [keepScalar, get_run]
  cases hv : regs.get r with
  | scalar v =>
    exact keepByte_of_reloadable (h r hr v (by rw [hv]; rfl))
  | empty | half => rfl

/-- A word in a light record can be loaded again. -/
theorem reloadable_of_pairValue? {p : Pair} {high low : Reg} {v : Value}
    (hp : p.halves? = some (high, low)) (h : regs.LightAt [high, low])
    (hv : regs.pairValue? p = some v) : reloadable v = true := by
  obtain ⟨hhigh, -⟩ := (pairValue?_eq_some hp).mp hv
  exact h high (by simp) v (by rw [hhigh]; rfl)

/-- If HL holds nothing of worth, it is only forgotten. -/
theorem vacateHL_of_light (h : regs.LightAt [.h, .l]) :
    vacateHL none { s with code, regs } =
      .ok false { s with code, regs := regs.clearPair .h } := by
  rw [vacateHL, get_run]
  cases hv : regs.pairValue? .h with
  | some v =>
    simp only [reduceCtorEq, if_false,
      mustKeep_of_reloadable (reloadable_of_pairValue? (p := .h) rfl h hv)]
    rfl
  | none =>
    refine (bind_run (keepScalar_of_light h (r := .h) (by decide))).trans ?_
    exact bind_run (keepScalar_of_light h (r := .l) (by decide))

/-- If HL holds nothing of worth, no copy of it is made. -/
theorem preserveHL_of_light (h : regs.LightAt [.h, .l]) :
    preserveHL { s with code, regs } = .ok () { s with code, regs } := by
  rw [preserveHL, get_run]
  cases hv : regs.pairValue? .h with
  | some v =>
    simp only [mustKeep_of_reloadable (reloadable_of_pairValue? (p := .h) rfl h hv)]
    rfl
  | none =>
    refine (bind_run (keepScalar_of_light h (r := .h) (by decide))).trans ?_
    exact keepScalar_of_light h (r := .l) (by decide)

/-- If a pair holds nothing of worth, it is only forgotten. -/
theorem vacatePair_of_light {p : Pair} {high low : Reg} (hp : p.halves? = some (high, low))
    (h : regs.LightAt [high, low]) :
    vacatePair p { s with code, regs } = .ok () { s with code, regs := regs.clearPair p } := by
  rw [vacatePair, hp]
  simp only [get_run]
  cases hv : regs.pairValue? p with
  | some v =>
    simp only [mustKeep_of_reloadable (reloadable_of_pairValue? hp h hv)]
    rfl
  | none =>
    refine (bind_run (keepScalar_of_light h (by simp))).trans ?_
    exact bind_run (keepScalar_of_light h (by simp))

theorem vacateReg_of_empty {r : Reg} (h : regs.get r = .empty) :
    vacateReg r { s with code, regs } = .ok () { s with code, regs := regs.clear r } := by
  rw [vacateReg, get_run]
  simp only [h]
  rfl

/-- A pair that holds nothing but what can be loaded again, and nothing that the current triple
reads, is free. -/
theorem isFree_of_light {p : Pair} {high low : Reg} (hp : p.halves? = some (high, low))
    (h : s.regs.LightAt [high, low])
    (hpinned : ∀ r ∈ [high, low], ∀ v, (s.regs.get r).value? = some v → v ∉ s.pinned) :
    s.isFree p = true := by
  simp only [State.isFree, hp, List.all_eq_true]
  intro r hr
  cases hv : (s.regs.get r).value? with
  | none => rfl
  | some v => simp [mustKeep_of_reloadable (h r hr v hv), State.isPinned, hpinned r hr v hv]

end Quiet

end Select

end Accumulator
