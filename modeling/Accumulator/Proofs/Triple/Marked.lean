import Mathlib
import Accumulator.Proofs.Triple.Coherent

/-!
# Elements that are used by address only

The value of a word element that is marked is never loaded. `MarksHold` says in which ways marked
elements are referred to, and optimizing adds no way: a reference that is followed through an
addition of zero does not lead to a marked element, and of two elements that are merged one stays
marked if both are.
-/

namespace Accumulator

namespace Triple

variable {symbols : SymbolTable} {wide : Bool} {ways : Op → Bool → Prop} {t u : Triple}
  {triples : List Triple} {id : Nat}

/-- A triple refers to a result on its left only, and in certain ways only: these are given by its
operator and by whether it assigns through a pointer. -/
def RefersLeft (ways : Op → Bool → Prop) (t : Triple) (id : Nat) : Prop :=
  t.rhs ≠ some (.temp id) ∧ (t.lhs = .temp id → ways t.op t.throughPointer)

/-- Marked triples are elements, and are referred to in certain ways only. -/
def MarksHold (ways : Op → Bool → Prop) (triples : List Triple) : Prop :=
  ∀ e ∈ triples, e.addressOnly = true → e.op = .index ∧ ∀ t ∈ triples, t.RefersLeft ways e.id

/-- A result that a triple does not refer to. -/
theorem refersLeft_of_not_mem (h : id ∉ t.refs) : t.RefersLeft ways id := by
  have hnot : t.refersTo id = false := Bool.eq_false_iff.mpr fun href => h (mem_refs.mpr href)
  simp only [refersTo, Bool.or_eq_false_iff, decide_eq_false_iff_not] at hnot
  exact ⟨hnot.2, fun hlhs => absurd hlhs hnot.1⟩

theorem RefersLeft.mono {ways' : Op → Bool → Prop} (h : t.RefersLeft ways id)
    (hways : ways t.op t.throughPointer → ways' t.op t.throughPointer) : t.RefersLeft ways' id :=
  ⟨h.1, fun hlhs => hways (h.2 hlhs)⟩

/-! ## Strength reduction -/

/-- A triple of another kind does not refer to the result at all. -/
theorem RefersLeft.not_mem_refs (h : t.RefersLeft ways id) (hnot : ¬ways t.op t.throughPointer) :
    id ∉ t.refs := by
  rw [mem_refs, refersTo]
  simp only [Bool.or_eq_true, decide_eq_true_eq]
  rintro (hlhs | hrhs)
  · exact hnot (h.2 hlhs)
  · exact h.1 hrhs

/-- What is kept of a triple is the triple itself or a count. -/
theorem reduceOne_of_kept? {t' : Triple} (h : t.kept? = some t') :
    t.reduceOne = .counted t' ∨ t.reduceOne = .same t' := by
  unfold kept? at h
  split at h
  · cases h
  · cases h
  next hreduced => exact .inl (Option.some.inj h ▸ hreduced)
  next hreduced => exact .inr (Option.some.inj h ▸ hreduced)

/-- Reduction leaves the marks of a triple alone, whether it turns it around, makes a count of it or
keeps it. -/
theorem addressOnly_of_kept? {t' : Triple} (h : t.kept? = some t') :
    t'.addressOnly = t.addressOnly := by
  have hliteral : t.literalRight.addressOnly = t.addressOnly := by
    unfold literalRight
    split
    · split <;> rfl
    · rfl
  have hconstant {op : Op} {n : Int}
      (h : t.literalRight.reduceConstant op n = .counted t' ∨
        t.literalRight.reduceConstant op n = .same t') : t'.addressOnly = t.addressOnly := by
    unfold reduceConstant at h
    split at h
    · rcases h with h | h <;> cases h
    · split at h <;> rcases h with h | h <;> cases h <;> exact hliteral
  have hreduced := reduceOne_of_kept? h
  unfold reduceOne at hreduced
  dsimp only at hreduced
  split at hreduced
  · exact hconstant hreduced
  · exact hconstant hreduced
  · split at hreduced <;> rcases hreduced with h | h <;> cases h
    exact hliteral

/-- What is kept of a triple refers to a result in the same way, unless it is a sum. -/
theorem RefersLeft.kept {t' : Triple} (h : t.RefersLeft ways id) (hwell : t.WellFormed)
    (hkept : t.kept? = some t') (hsum : t.IsSum → ¬ways t.op t.throughPointer) :
    t'.RefersLeft ways id := by
  rcases (keptAs_of_kept? hwell hkept).same with rfl | ⟨hwas, _⟩
  · exact h
  · refine refersLeft_of_not_mem fun hmem => h.not_mem_refs (hsum hwas) ?_
    exact (similar_of_kept .empty hwell (reduceOne_of_kept? hkept)).refs id hmem

/-- Replacing operands by others brings in no reference to the result. -/
theorem RefersLeft.mapOperands {f : Operand → Operand} (h : t.RefersLeft ways id)
    (hf : ∀ o, f o = .temp id → o = .temp id) : (t.mapOperands f).RefersLeft ways id := by
  refine ⟨fun hrhs => ?_, fun hlhs => h.2 (hf _ hlhs)⟩
  obtain ⟨o, ho, htemp⟩ := Option.map_eq_some_iff.mp hrhs
  exact h.1 (ho.trans (congrArg some (hf o htemp)))

/-- Where a triple comes from that strength reduction leaves. -/
theorem exists_of_mem_reduceAll {widths : Nat → Width}
    (h : Orderly symbols wide [] widths triples) (hu : u ∈ (reduceAll triples).triples) :
    ∃ pre t post, triples = pre ++ t :: post ∧
      (t.mapOperands (resolve pre.reverse)).WellFormed ∧
      (t.mapOperands (resolve pre.reverse)).kept? = some u := by
  rw [reduceAll_eq h] at hu
  obtain ⟨v, hv, hkept⟩ := List.mem_filterMap.mp hu
  obtain ⟨pre, t, post, rfl, rfl⟩ := mem_resolveAll hv
  rw [List.append_nil] at hkept
  refine ⟨pre, t, post, rfl, ?_, hkept⟩
  refine (h.wellFormed t (by simp)).mapOperands (replaces_resolve fun v hv => ?_)
  exact h.wellFormed v (by simp_all)

/-- Strength reduction keeps to the ways in which marked elements are referred to, if sums are not
among them: so no reference to a sum becomes one to a marked element. -/
theorem MarksHold.reduceAll {widths : Nat → Width} (hmarks : MarksHold ways triples)
    (h : Orderly symbols wide [] widths triples)
    (hsum : ∀ t : Triple, t.IsSum → ¬ways t.op t.throughPointer) :
    MarksHold ways (Triple.reduceAll triples).triples := by
  intro e' he' hmarked
  obtain ⟨pre, e, post, hsplit, hwell, hkept⟩ := exists_of_mem_reduceAll h he'
  have hmem : e ∈ triples := by simp [hsplit]
  obtain ⟨hop, hrefers⟩ := hmarks e hmem ((addressOnly_of_kept? hkept).symm.trans hmarked)
  have hkeptAs := keptAs_of_kept? hwell hkept
  refine ⟨?_, fun t' ht' => ?_⟩
  · rcases hkeptAs.same with rfl | ⟨hwas, _⟩
    · exact hop
    · have hindex : (e.mapOperands (resolve pre.reverse)).op = .index := hop
      rcases hwas with hwas | hwas | hwas | hwas <;> simp [hwas] at hindex
  · obtain ⟨pre', t, post', hsplit', hwell', hkept'⟩ := exists_of_mem_reduceAll h ht'
    have hearlier : ∀ v ∈ pre'.reverse, v ∈ triples := by
      intro v hv
      rw [hsplit']
      exact List.mem_append_left _ (List.mem_reverse.mp hv)
    rw [hkeptAs.id]
    refine RefersLeft.kept ?_ hwell' hkept' (hsum _)
    refine (hrefers t (by simp [hsplit'])).mapOperands fun o ho => ?_
    refine eq_temp_of_resolve (fun v hv => h.wellFormed v (hearlier v hv)) (fun v hv hadds => ?_) ho
    -- An addition of zero to the element would be a sum that refers to it.
    have hsums : v.IsSum := by
      rcases hadds with ⟨hop | hop, _⟩ | ⟨hop, _⟩
      · exact .inl hop
      · exact .inr (.inl hop)
      · exact .inl hop
    refine (hrefers v (hearlier v hv)).not_mem_refs (hsum v hsums) ?_
    exact mem_refs.mpr (refersTo_of_mem hadds.mem)

/-! ## Merging -/

/-- A renamed reference is allowed, if it was allowed to what it was renamed from. -/
theorem RefersLeft.rename {i j : Nat} (h : t.RefersLeft ways id)
    (hrenamed : id = j → t.RefersLeft ways i) : (t.rename i (.temp j)).RefersLeft ways id := by
  have hsubst (x : Operand) (hx : (if x = .temp i then .temp j else x) = .temp id) :
      x = .temp id ∨ id = j ∧ x = .temp i := by
    split at hx
    next hi => exact .inr ⟨(Operand.temp.inj hx).symm, hi⟩
    next => exact .inl hx
  constructor
  · intro hrhs
    obtain ⟨x, hx, hrhs⟩ := Option.map_eq_some_iff.mp hrhs
    rcases hsubst x hrhs with rfl | ⟨hj, rfl⟩
    · exact h.1 hx
    · exact (hrenamed hj).1 hx
  · intro hlhs
    rcases hsubst _ hlhs with hlhs | ⟨hj, hlhs⟩
    · exact h.2 hlhs
    · exact (hrenamed hj).2 hlhs

/-- Of two elements that are merged, one stays marked if both are. -/
theorem marked_of_mem_merged {d : Duplicate} {e' : Triple}
    (hnodup : (d.original.map Triple.id).Nodup) (he' : e' ∈ d.merged)
    (hmarked : e'.addressOnly = true) :
    ∃ e ∈ d.original, e.id = e'.id ∧ e.op = e'.op ∧ e.addressOnly = true ∧
      (e'.id = d.first.id → d.last.addressOnly = true) := by
  -- No other triple has the number of the first of the two.
  have hother : ∀ e ∈ d.before ++ (d.between ++ d.last :: d.rest), e.id ≠ d.first.id := by
    have hmiddle : d.original = d.before ++ d.first :: (d.between ++ d.last :: d.rest) := by
      simp [Duplicate.original]
    rw [hmiddle, List.map_append, List.map_cons, List.nodup_middle, ← List.map_append] at hnodup
    intro e he hid
    exact (List.nodup_cons.mp hnodup).1 (hid ▸ List.mem_map_of_mem he)
  simp only [Duplicate.merged, List.mem_append, List.mem_cons, List.mem_map] at he'
  rcases he' with (hbefore | rfl | hbetween) | ⟨e, hrest, rfl⟩
  · refine ⟨e', by simp [Duplicate.original, hbefore], rfl, rfl, hmarked, fun hid => ?_⟩
    exact absurd hid (hother e' (by simp [hbefore]))
  · obtain ⟨hfirst, hlast⟩ := Bool.and_eq_true_iff.mp hmarked
    exact ⟨d.first, by simp [Duplicate.original], rfl, rfl, hfirst, fun _ => hlast⟩
  · refine ⟨e', by simp [Duplicate.original, hbetween], rfl, rfl, hmarked, fun hid => ?_⟩
    exact absurd hid (hother e' (by simp [hbetween]))
  · refine ⟨e, by simp [Duplicate.original, hrest], rfl, rfl, hmarked, fun hid => ?_⟩
    exact absurd hid (hother e (by simp [hrest]))

/-- What refers to the first of the two refers to it, or to the last before they are merged. -/
theorem refersLeft_merged {d : Duplicate} (h : ∀ t ∈ d.original, t.RefersLeft ways id)
    (hlast : id = d.first.id → ∀ t ∈ d.original, t.RefersLeft ways d.last.id) :
    ∀ t ∈ d.merged, t.RefersLeft ways id := by
  have hrenamed : ∀ t ∈ d.original, (t.rename d.last.id (.temp d.first.id)).RefersLeft ways id :=
    fun t ht => (h t ht).rename fun hid => hlast hid t ht
  simp only [Duplicate.original, Duplicate.merged, List.forall_mem_append, List.forall_mem_cons,
    List.forall_mem_map] at h hrenamed ⊢
  exact ⟨⟨h.1.1, h.1.2.1, h.1.2.2⟩, hrenamed.2.2⟩

/-- Merging keeps to the ways in which marked elements are referred to. -/
theorem MarksHold.merged {d : Duplicate} (h : MarksHold ways d.original)
    (hnodup : (d.original.map Triple.id).Nodup) : MarksHold ways d.merged := by
  intro e' he' hmarked
  obtain ⟨e, he, hid, hop, hmark, hboth⟩ := marked_of_mem_merged hnodup he' hmarked
  obtain ⟨hindex, hrefers⟩ := h e he hmark
  refine ⟨hop ▸ hindex, refersLeft_merged (hid ▸ hrefers) fun hfirst => ?_⟩
  exact (h d.last (by simp [Duplicate.original]) (hboth hfirst)).2

/-- Optimizing keeps to the ways in which marked elements are referred to. -/
theorem MarksHold.optimize (hmarks : MarksHold ways triples)
    (h : Orderly symbols wide [] (widthsOf []) triples)
    (hsum : ∀ t : Triple, t.IsSum → ¬ways t.op t.throughPointer) :
    MarksHold ways (Triple.optimize symbols triples) := by
  have horderly : Orderly symbols true [] (widthsOf []) (Triple.reduceAll triples).triples :=
    (orderly_reduceAll h).1.widen
  rw [Triple.optimize, reduce_eq h]
  refine (mergeAll_induction (P := fun triples =>
    Orderly symbols true [] (widthsOf []) triples ∧ MarksHold ways triples) ?_
    ⟨horderly, hmarks.reduceAll h hsum⟩).2
  rintro d hd ⟨horderly, hmarks⟩
  exact ⟨hd.orderly horderly, hmarks.merged horderly.nodup⟩

end Triple

end Accumulator
