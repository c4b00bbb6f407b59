import Accumulator.Proofs.Triple.Merge
import Accumulator.Proofs.Triple.Resolve

/-!
# Optimizing reaches a fixpoint

What is proved here holds of any list of triples: references may dangle or point forward, numbers
may occur twice and widths may be wrong. Strength reduction leaves triples on which it has nothing
more to do, and that is a property of each triple alone (`IsReduced`). Merging a duplicate only
renames references to triples into others, so it does not expose anything to reduce, and every
round makes the list shorter. What is left in the end is changed by neither pass.
-/

namespace Accumulator.Triple

variable {t t' : Triple} {triples : List Triple} {symbols : SymbolTable}

/-! ## Triples with nothing to reduce -/

/-- Strength reduction has nothing to do: an addition has no literal on the left only, nothing
between zero and the largest count is added or subtracted, and no variable is assigned to itself. -/
structure IsReduced (t : Triple) : Prop where
  turned : ∀ c y, t.op = .add → t.lhs = .const c → t.rhs = some y → y.isConst = true
  large : t.op = .add ∨ t.op = .sub → ∀ n, t.rhs = some (.const n) → n < 0 ∨ maxRepetitions < n
  assigns : t.isSelfAssign = false

/-- A literal on the left is brought to the right, or there was none to bring. -/
theorem turned_literalRight (t : Triple) (c : Int) (y : Operand) (hop : t.literalRight.op = .add)
    (hlhs : t.literalRight.lhs = .const c) (hrhs : t.literalRight.rhs = some y) :
    y.isConst = true := by
  by_cases hturn : ∃ c' y', t.op = .add ∧ t.lhs = .const c' ∧ t.rhs = some y' ∧ y'.isConst = false
  · obtain ⟨c', y', hadd, hconst, hsome, hy'⟩ := hturn
    simp only [literalRight, hadd, hconst, hsome, hy', Bool.false_eq_true, if_false] at hlhs
    simp [hlhs, Operand.isConst] at hy'
  · have hkept : ∀ c' y', t.op = .add → t.lhs = .const c' → t.rhs = some y' →
        y'.isConst = true := by
      intro c' y' hadd hconst hsome
      by_contra hy'
      exact hturn ⟨c', y', hadd, hconst, hsome, by simpa using hy'⟩
    rw [literalRight_eq_self hkept] at hop hlhs hrhs
    exact hkept c y hop hlhs hrhs

/-- A literal that is negative or too large to count is left as it is. -/
theorem reduceConstant_of_large {op : Op} {n : Int} (hn : n < 0 ∨ maxRepetitions < n) :
    t.reduceConstant op n = .same t := by
  unfold maxRepetitions at hn
  rw [reduceConstant, if_neg (by omega), if_neg (by unfold maxRepetitions; omega)]

/-- A reduced triple is kept as it is. -/
theorem IsReduced.reduceOne_eq (h : t.IsReduced) : t.reduceOne = .same t := by
  unfold reduceOne
  rw [literalRight_eq_self h.turned]
  dsimp only
  split
  next n hop hrhs => exact reduceConstant_of_large (h.large (.inl hop) n hrhs)
  next n hop hrhs => exact reduceConstant_of_large (h.large (.inr hop) n hrhs)
  next => rw [h.assigns, if_neg Bool.false_ne_true]

/-- What counts is reduced. -/
theorem isReduced_of_counts (hop : t.op = .inc ∨ t.op = .dec) : t.IsReduced where
  turned c y hadd := by rcases hop with hop | hop <;> simp [hop] at hadd
  large hsum := by rcases hop with hop | hop <;> simp [hop] at hsum
  assigns := by rcases hop with hop | hop <;> simp [isSelfAssign, hop]

/-- What is kept of a sum with a literal on the right. -/
theorem isReduced_of_reduceConstant {op : Op} {n : Int} (hop : op = .inc ∨ op = .dec)
    (hsum : t.op = .add ∨ t.op = .sub) (hrhs : t.rhs = some (.const n))
    (h : t.reduceConstant op n = .counted t' ∨ t.reduceConstant op n = .same t') :
    t'.IsReduced := by
  unfold reduceConstant at h
  split at h
  next => rcases h with h | h <;> cases h
  next hzero =>
    split at h
    next =>
      rcases h with h | h <;> cases h
      exact isReduced_of_counts hop
    next hlarge =>
      rcases h with h | h <;> cases h
      refine ⟨fun c y _ _ hy => ?_, fun _ k hk => ?_, ?_⟩
      · rw [hrhs] at hy
        rw [← Option.some.inj hy]
        rfl
      · obtain rfl : n = k := by simpa [hrhs] using hk
        unfold maxRepetitions at hlarge ⊢
        omega
      · refine not_isSelfAssign ?_
        rcases hsum with hsum | hsum <;> simp [hsum]

/-- What is kept of a triple is reduced: nothing is left to turn around, to count or to drop in
it. -/
theorem isReduced_of_kept (h : t.reduceOne = .counted t' ∨ t.reduceOne = .same t') :
    t'.IsReduced := by
  unfold reduceOne at h
  dsimp only at h
  split at h
  next n hop hrhs => exact isReduced_of_reduceConstant (.inl rfl) (.inl hop) hrhs h
  next n hop hrhs => exact isReduced_of_reduceConstant (.inr rfl) (.inr hop) hrhs h
  next hadd hsub =>
    split at h
    next => rcases h with h | h <;> cases h
    next hself =>
      rcases h with h | h <;> cases h
      refine ⟨turned_literalRight t, fun hsum n hrhs => ?_, by simpa using hself⟩
      rcases hsum with hop | hop
      · exact absurd hrhs (hadd n hop)
      · exact absurd hrhs (hsub n hop)

/-! ## Renaming references -/

/-- A reference that is renamed to another stays a reference. -/
theorem eq_of_renamed {id k : Nat} {o : Operand} (ho : o.temp? = none) (x : Operand) :
    (if x = .temp id then .temp k else x) = o ↔ x = o := by
  split
  next hx =>
    subst hx
    constructor
    · rintro rfl
      cases ho
    · rintro rfl
      cases ho
  next => exact Iff.rfl

/-- Renaming a reference to another does not bring in or take away anything that is no reference. -/
theorem lhs_rename_eq {id k : Nat} {o : Operand} (ho : o.temp? = none) :
    (t.rename id (.temp k)).lhs = o ↔ t.lhs = o :=
  eq_of_renamed ho t.lhs

theorem rhs_rename_eq {id k : Nat} {o : Operand} (ho : o.temp? = none) :
    (t.rename id (.temp k)).rhs = some o ↔ t.rhs = some o := by
  show t.rhs.map _ = some o ↔ _
  rw [Option.map_eq_some_iff]
  simp only [eq_of_renamed ho, exists_eq_right]

theorem isSelfAssign_iff : t.isSelfAssign = true ↔
    t.op = .assign ∧ t.throughPointer = false ∧
      ∃ name, t.lhs = .var name ∧ t.rhs = some (.var name) := by
  simp only [isSelfAssign, Bool.and_eq_true, Bool.not_eq_true', decide_eq_true_eq, and_assoc]
  refine and_congr_right fun _ => and_congr_right fun _ => ?_
  cases t.lhs <;> simp [Operand.var?]

/-- Renaming a reference to another exposes nothing to reduce, since it makes neither a literal nor
a variable of it. -/
theorem IsReduced.rename (h : t.IsReduced) (id k : Nat) : (t.rename id (.temp k)).IsReduced where
  turned c y hop hlhs hrhs := by
    obtain ⟨x, hx, rfl⟩ := Option.map_eq_some_iff.mp hrhs
    have hconst : x.isConst = true := h.turned c x hop ((lhs_rename_eq rfl).mp hlhs) hx
    rwa [isConst_of_replaces (replaces_rename rfl)]
  large hsum n hrhs := h.large hsum n ((rhs_rename_eq rfl).mp hrhs)
  assigns := by
    rw [Bool.eq_false_iff, Ne, isSelfAssign_iff]
    rintro ⟨hop, hpointer, name, hlhs, hrhs⟩
    have hself : t.isSelfAssign = true :=
      isSelfAssign_iff.mpr ⟨hop, hpointer, name, (lhs_rename_eq rfl).mp hlhs,
        (rhs_rename_eq rfl).mp hrhs⟩
    rw [h.assigns] at hself
    cases hself

/-- Taking over the marks of another triple exposes nothing to reduce. -/
theorem IsReduced.absorb (h : t.IsReduced) (u : Triple) : (t.absorb u).IsReduced :=
  ⟨h.turned, h.large, h.assigns⟩

/-! ## Whole lists -/

/-- On reduced triples the pass changes nothing. -/
theorem reduceAll_of_isReduced (h : ∀ t ∈ triples, t.IsReduced) :
    reduceAll triples = { triples } := by
  induction triples with
  | nil => rw [reduceAll]
  | cons t rest ih =>
    rw [reduceAll, (h t List.mem_cons_self).reduceOne_eq]
    dsimp only
    rw [ih fun u hu => h u (List.mem_cons_of_mem t hu)]

theorem reduce_of_isReduced (h : ∀ t ∈ triples, t.IsReduced) :
    reduce symbols triples = (triples, false) := by
  rw [reduce, reduceAll_of_isReduced h]
  rfl

/-- What the pass leaves is reduced, by induction along the pass. The triples that follow are
renamed before they are reduced. -/
theorem isReduced_reduceAll (triples : List Triple) :
    ∀ t ∈ (reduceAll triples).triples, t.IsReduced := by
  refine reduceAll_induction (P := fun _ after => ∀ t ∈ after, t.IsReduced) ?_ ?_ ?_ ?_ triples
  · rintro _ ⟨⟩
  · exact fun _ h => h
  · exact fun _ h => h
  · intro t t' rest after hkept h
    exact List.forall_mem_cons.mpr ⟨isReduced_of_kept hkept, h⟩

/-- A width has no part in what is reduced. -/
theorem isReduced_deriveWidths {done : List Triple} (hdone : ∀ t ∈ done, t.IsReduced)
    (h : ∀ t ∈ triples, t.IsReduced) : ∀ t ∈ deriveWidths symbols done triples, t.IsReduced := by
  induction triples generalizing done with
  | nil => exact hdone
  | cons t rest ih =>
    obtain ⟨ht, hrest⟩ := List.forall_mem_cons.mp h
    refine ih (List.forall_mem_append.mpr ⟨hdone, ?_⟩) hrest
    exact List.forall_mem_singleton.mpr ⟨ht.turned, ht.large, ht.assigns⟩

/-- What strength reduction leaves is reduced, also where widths are derived anew. -/
theorem isReduced_reduce (symbols : SymbolTable) (triples : List Triple) :
    ∀ t ∈ (reduce symbols triples).1, t.IsReduced := by
  unfold reduce
  dsimp only
  split
  · exact isReduced_deriveWidths (by rintro _ ⟨⟩) (isReduced_reduceAll triples)
  · exact isReduced_reduceAll triples

/-- A merged duplicate leaves reduced triples. -/
theorem isReduced_merged (d : Duplicate) (h : ∀ t ∈ d.original, t.IsReduced) :
    ∀ t ∈ d.merged, t.IsReduced := by
  simp only [Duplicate.original, List.forall_mem_append, List.forall_mem_cons] at h
  obtain ⟨⟨hbefore, hfirst, hbetween⟩, -, hrest⟩ := h
  simp only [Duplicate.merged, List.forall_mem_append, List.forall_mem_cons, List.forall_mem_map]
  exact ⟨⟨hbefore, hfirst.absorb d.last, hbetween⟩, fun t ht => (hrest t ht).rename _ _⟩

theorem isReduced_optimize (symbols : SymbolTable) (triples : List Triple) :
    ∀ t ∈ optimize symbols triples, t.IsReduced :=
  mergeAll_induction (P := fun triples => ∀ t ∈ triples, t.IsReduced)
    (fun d _ h => isReduced_merged d h) (isReduced_reduce symbols triples)

/-! ## Rounds -/

theorem merge?_mergeAll (triples : List Triple) : merge? (mergeAll triples) = none := by
  fun_induction mergeAll triples with
  | case1 triples hmerge => exact hmerge
  | case2 triples merged hmerge ih => exact ih

theorem mergeAll_of_none (h : merge? triples = none) : mergeAll triples = triples := by
  rw [mergeAll]
  split
  next => rfl
  next hmerge =>
    rw [h] at hmerge
    cases hmerge

/-- Otherwise it goes on with what one round leaves. -/
theorem mergeAll_of_some {merged : List Triple} (h : merge? triples = some merged) :
    mergeAll triples = mergeAll merged := by
  rw [mergeAll]
  split
  next hmerge =>
    rw [h] at hmerge
    cases hmerge
  next hmerge =>
    rw [h] at hmerge
    cases hmerge
    rfl

/-- Each list comes from the one before it by one round. -/
theorem isChain_mergeRounds (triples : List Triple) :
    (triples :: mergeRounds triples).IsChain fun before after => merge? before = some after := by
  fun_induction mergeRounds triples with
  | case1 triples hmerge => exact .singleton triples
  | case2 triples merged hmerge ih => exact List.isChain_cons_cons.mpr ⟨hmerge, ih⟩

/-- The last list of the rounds is the one that merging returns. -/
theorem getLast?_mergeRounds (triples : List Triple) :
    (triples :: mergeRounds triples).getLast? = some (mergeAll triples) := by
  fun_induction mergeRounds triples with
  | case1 triples hmerge =>
    rw [mergeAll_of_none hmerge]
    rfl
  | case2 triples merged hmerge ih => rw [List.getLast?_cons_cons, ih, mergeAll_of_some hmerge]

/-- Each round removes one triple. -/
theorem length_mergeRounds (triples : List Triple) :
    (mergeRounds triples).length + (mergeAll triples).length = triples.length := by
  fun_induction mergeRounds triples with
  | case1 triples hmerge => rw [mergeAll_of_none hmerge, List.length_nil, Nat.zero_add]
  | case2 triples merged hmerge ih =>
    rw [mergeAll_of_some hmerge, ← merge?_length hmerge, List.length_cons, ← ih]
    omega

/-- For any triples, the rounds of merging after strength reduction come to an end, and what they
leave is changed neither by strength reduction nor by another round. -/
theorem optimize_optimize (symbols : SymbolTable) (triples : List Triple) :
    let reduced := (reduce symbols triples).1
    let final := optimize symbols triples
    (reduced :: mergeRounds reduced).IsChain (fun before after => merge? before = some after) ∧
      (reduced :: mergeRounds reduced).getLast? = some final ∧
      (mergeRounds reduced).length + final.length = reduced.length ∧
      reduce symbols final = (final, false) ∧ merge? final = none ∧
      optimize symbols final = final := by
  intro reduced final
  have hreduce : reduce symbols final = (final, false) :=
    reduce_of_isReduced (isReduced_optimize symbols triples)
  have hmerge : merge? final = none := merge?_mergeAll reduced
  refine ⟨isChain_mergeRounds reduced, getLast?_mergeRounds reduced, length_mergeRounds reduced,
    hreduce, hmerge, ?_⟩
  rw [optimize, hreduce]
  exact mergeAll_of_none hmerge

end Accumulator.Triple
