import Mathlib
import Accumulator.Proofs.Draft
import Accumulator.Proofs.Triple.Merge
import Accumulator.Proofs.Triple.Resolve

/-!
# Lists of triples are coherent

`Coherent` collects what every reader of a list of triples relies on: numbers grow, references go
back to results, variables are declared, what is indexed is an array, and the stored widths are
those that the operands give. It holds of the draft of any events, of which some may have been
rejected, and of the optimized draft. Optimizing drops no assignment but those of a variable to
itself, and it finds these by following references through additions of zero.
-/

namespace Accumulator

namespace Triple

variable {symbols : SymbolTable} {wide : Bool} {widths : Nat → Width} {t u : Triple}
  {earlier rest triples : List Triple} {o : Operand} {name : String} {id : Nat}

/-- What a list of triples promises. -/
structure Coherent (symbols : SymbolTable) (triples : List Triple) : Prop where
  increasing : (triples.map Triple.id).Pairwise (· < ·)
  refersBack : ∀ pre t post, triples = pre ++ t :: post → ∀ id ∈ t.refs,
    ∃ u ∈ pre, u.id = id ∧ u.op ≠ .assign
  declared : ∀ t ∈ triples, ∀ name, t.Names name → symbols.contains name = true
  indexed : ∀ t ∈ triples, t.op = .index → ∃ name, t.lhs = .var name ∧ symbols.HasArray name
  typed : ∀ pre t post, triples = pre ++ t :: post → t.width = t.derivedWidth pre symbols

/-- In the wide sense the results of all triples are in scope. -/
theorem mem_scopeAfter_wide {scope : List Nat} (h : id ∈ scopeAfter true scope triples) :
    id ∈ scope ∨ ∃ u ∈ triples, u.id = id ∧ u.op ≠ .assign := by
  induction triples generalizing scope with
  | nil => exact .inl h
  | cons t rest ih =>
    rcases ih h with hscope | ⟨u, hu, hid⟩
    · by_cases hop : t.op = .assign
      · rw [nextScope, if_pos hop, if_pos rfl] at hscope
        exact .inl hscope
      · rw [nextScope_of_ne hop] at hscope
        rcases List.mem_cons.mp hscope with rfl | hscope
        · exact .inr ⟨t, List.mem_cons_self, rfl, hop⟩
        · exact .inl hscope
    · exact .inr ⟨u, List.mem_cons_of_mem _ hu, hid⟩

/-- Variables are declared, and what is indexed is an array. -/
def Grounded (symbols : SymbolTable) (t : Triple) : Prop :=
  (∀ name, t.Names name → symbols.contains name = true) ∧
    (t.op = .index → ∃ name, t.lhs = .var name ∧ symbols.HasArray name)

/-- Triples in order, with increasing numbers and grounded, are coherent: what they refer to is in
scope, and their widths are those of their operands. -/
theorem coherent_of_orderly (h : Orderly symbols true [] (widthsOf []) triples)
    (hincreasing : (triples.map Triple.id).Pairwise (· < ·))
    (hgrounded : ∀ t ∈ triples, t.Grounded symbols) : Coherent symbols triples where
  increasing := hincreasing
  refersBack := by
    rintro pre t post rfl id hid
    have hscope := (scoped_append.mp h.inScope).2.1 id hid
    exact (mem_scopeAfter_wide hscope).resolve_left List.not_mem_nil
  declared t ht := (hgrounded t ht).1
  indexed t ht := (hgrounded t ht).2
  typed := by
    rintro pre t post rfl
    have hnodup : ((([] : List Triple) ++ pre).map Triple.id).Nodup := by
      have hnodup := h.nodup
      rw [List.map_append, List.nodup_append] at hnodup
      exact hnodup.1
    rw [(typed_append.mp h.typed).2.1, widthsAfter_eq hnodup, derivedWidth_eq, List.nil_append]

/-! ## Optimizing -/

/-- Optimizing keeps triples in order, in the wide sense. -/
theorem orderly_optimize (h : Orderly symbols wide [] (widthsOf []) triples) :
    Orderly symbols true [] (widthsOf []) (optimize symbols triples) := by
  rw [optimize, reduce_eq h]
  exact orderly_mergeAll (orderly_reduceAll h).1.widen

/-- Merging two triples leaves the numbers of all but one. -/
theorem sublist_merged {d : Duplicate} :
    List.Sublist (d.merged.map Triple.id) (d.original.map Triple.id) := by
  have hmerged : d.merged.map Triple.id =
      (d.before ++ d.first :: d.between).map Triple.id ++ d.rest.map Triple.id := by
    simp [Duplicate.merged, absorb, rename]
  have horiginal : d.original.map Triple.id =
      (d.before ++ d.first :: d.between).map Triple.id ++ (d.last :: d.rest).map Triple.id :=
    List.map_append
  rw [hmerged, horiginal]
  exact List.Sublist.append (List.Sublist.refl _) (List.sublist_cons_self _ _)

/-- Optimizing removes triples and leaves the others in place. -/
theorem sublist_optimize (h : Orderly symbols wide [] (widthsOf []) triples) :
    List.Sublist ((optimize symbols triples).map Triple.id) (triples.map Triple.id) := by
  rw [optimize, reduce_eq h]
  have hmerged : List.Sublist ((mergeAll (reduceAll triples).triples).map Triple.id)
      ((reduceAll triples).triples.map Triple.id) :=
    mergeAll_induction (P := fun merged => List.Sublist (merged.map Triple.id)
      ((reduceAll triples).triples.map Triple.id)) (fun d _ h => sublist_merged.trans h)
      (List.Sublist.refl _)
  exact hmerged.trans (orderly_reduceAll h).2

/-- A variable that a reference leads to is named on the way. -/
theorem names_of_resolve (h : resolve earlier o = .var name)
    (hwell : ∀ u ∈ earlier, u.WellFormed) :
    o = .var name ∨ ∃ u ∈ earlier, u.Names name := by
  induction earlier generalizing o with
  | nil => exact .inl h
  | cons t earlier ih =>
    obtain ⟨ht, hwell⟩ := List.forall_mem_cons.mp hwell
    have hmono : (∃ u ∈ earlier, u.Names name) → ∃ u ∈ t :: earlier, u.Names name :=
      fun ⟨u, hu, hname⟩ => ⟨u, List.mem_cons_of_mem _ hu, hname⟩
    rw [resolve] at h
    split at h
    next =>
      split at h
      next x hx =>
        rcases ih h hwell with rfl | hnames
        · exact .inr ⟨t, List.mem_cons_self, ((remains?_eq_some_iff ht).mp hx).mem⟩
        · exact .inr (hmono hnames)
      next => exact .inl h
    next => exact (ih h hwell).imp_right hmono

/-- References are followed from left to right, the second part with the first part before it. -/
theorem resolveAll_append {xs ys : List Triple} :
    resolveAll earlier (xs ++ ys) = resolveAll earlier xs ++ resolveAll
      (xs.reverse ++ earlier) ys := by
  induction xs generalizing earlier with
  | nil => rfl
  | cons t xs ih => simp [resolveAll, ih]

theorem ids_resolveAll : (resolveAll earlier rest).map Triple.id = rest.map Triple.id := by
  induction rest generalizing earlier with
  | nil => rfl
  | cons t rest ih => exact congrArg (t.id :: ·) ih

/-- Every resolved triple comes from one of the list, whose references were followed through those
before it. -/
theorem mem_resolveAll (h : u ∈ resolveAll earlier rest) :
    ∃ pre t post, rest = pre ++ t :: post ∧
      u = t.mapOperands (resolve (pre.reverse ++ earlier)) := by
  induction rest generalizing earlier with
  | nil => cases h
  | cons t rest ih =>
    rcases List.mem_cons.mp h with rfl | h
    · exact ⟨[], t, rest, rfl, rfl⟩
    · obtain ⟨pre, v, post, rfl, rfl⟩ := ih h
      exact ⟨t :: pre, v, post, rfl, by simp⟩

/-- What is kept of a triple. -/
theorem keptAs_of_kept? {t' : Triple} (hwell : t.WellFormed) (h : t.kept? = some t') :
    t.KeptAs t' := by
  unfold kept? at h
  cases fate hwell with
  | identity o hreduced => simp [hreduced] at h
  | selfAssign hreduced => simp [hreduced] at h
  | kept t'' hreduced _ _ hkept =>
    rcases hreduced with hreduced | hreduced <;>
      · simp only [hreduced, Option.some.injEq] at h
        exact h ▸ hkept

/-- Resolved triples are well formed and grounded as the triples themselves are. -/
theorem grounded_resolveAll (hwell : ∀ t ∈ triples, t.WellFormed)
    (hgrounded : ∀ t ∈ triples, t.Grounded symbols) (hu : u ∈ resolveAll [] triples) :
    u.WellFormed ∧ u.Grounded symbols := by
  obtain ⟨pre, t, post, rfl, rfl⟩ := mem_resolveAll hu
  rw [List.append_nil]
  have ht : t ∈ pre ++ t :: post := by simp
  have hpre : ∀ v ∈ pre.reverse, v ∈ pre ++ t :: post := by
    intro v hv
    simp_all
  have hearlier : ∀ v ∈ pre.reverse, v.WellFormed := fun v hv => hwell v (hpre v hv)
  have hreplaces := replaces_resolve hearlier
  refine ⟨(hwell t ht).mapOperands hreplaces, fun name hname => ?_, fun hop => ?_⟩
  · have hoperand : .var name ∈ (t.lhs :: t.rhs.toList).map (resolve pre.reverse) := by
      rw [List.map_cons, ← Option.toList_map]
      exact hname
    obtain ⟨o, ho, hresolved⟩ := List.mem_map.mp hoperand
    rcases names_of_resolve hresolved hearlier with rfl | ⟨v, hv, hnames⟩
    · exact (hgrounded t ht).1 name ho
    · exact (hgrounded v (hpre v hv)).1 name hnames
  · obtain ⟨name, hlhs, harray⟩ := (hgrounded t ht).2 hop
    exact ⟨name, by simp [mapOperands, hlhs, hreplaces.fixed (.var name) rfl], harray⟩

theorem KeptAs.grounded {t' : Triple} (h : t.KeptAs t') (ht : t.Grounded symbols) :
    t'.Grounded symbols := by
  refine ⟨fun name hname => ht.1 name (h.names name hname), fun hop => ?_⟩
  rcases h.same with rfl | ⟨_, hsum⟩
  · exact ht.2 hop
  · rcases hsum with hsum | hsum | hsum | hsum <;> simp [hsum] at hop

/-- Renaming a reference to another one names no variable. -/
theorem Grounded.rename_temp {i j : Nat} (h : t.Grounded symbols) :
    (t.rename i (.temp j)).Grounded symbols := by
  refine ⟨fun name hname => h.1 name ?_, fun hop => ?_⟩
  · have hsubst (x : Operand) (hx : (if x = .temp i then .temp j else x) = .var name) :
        x = .var name := by
      split at hx
      · cases hx
      · exact hx
    simp only [Names, rename, List.mem_cons, Option.mem_toList, Option.map_eq_some_iff] at hname ⊢
    rcases hname with hlhs | ⟨x, hx, hrhs⟩
    · exact .inl (hsubst _ hlhs.symm).symm
    · exact .inr (hsubst _ hrhs ▸ hx)
  · obtain ⟨name, hlhs, harray⟩ := h.2 hop
    exact ⟨name, by simp [rename, hlhs], harray⟩

theorem grounded_merged {d : Duplicate} (h : ∀ t ∈ d.original, t.Grounded symbols) :
    ∀ t ∈ d.merged, t.Grounded symbols := by
  simp only [Duplicate.original, Duplicate.merged, List.forall_mem_append, List.forall_mem_cons,
    List.forall_mem_map] at h ⊢
  exact ⟨⟨h.1.1, h.1.2.1, h.1.2.2⟩, fun t ht => (h.2.2 t ht).rename_temp⟩

/-- Optimizing names no other variables and indexes no others. -/
theorem grounded_optimize (h : Orderly symbols wide [] (widthsOf []) triples)
    (hgrounded : ∀ t ∈ triples, t.Grounded symbols) :
    ∀ t ∈ optimize symbols triples, t.Grounded symbols := by
  rw [optimize, reduce_eq h, reduceAll_eq h]
  refine mergeAll_induction (P := fun triples => ∀ t ∈ triples, t.Grounded symbols)
    (fun d _ hd => grounded_merged hd) fun t ht => ?_
  obtain ⟨u, hu, hkept⟩ := List.mem_filterMap.mp ht
  obtain ⟨hwell, hground⟩ := grounded_resolveAll h.wellFormed hgrounded hu
  exact (keptAs_of_kept? hwell hkept).grounded hground

/-! ## Assignments that are dropped -/

/-- Once references are followed, the triple assigns a variable to itself. -/
def SelfAssigns (earlier : List Triple) (t : Triple) : Prop :=
  t.throughPointer = false ∧ ∃ name, resolve earlier t.lhs = .var name ∧
    t.rhs.map (resolve earlier) = some (.var name)

/-- Assigning a variable to itself, with references followed, is what strength reduction looks
for. -/
theorem selfAssigns_iff (hop : t.op = .assign) :
    t.SelfAssigns earlier ↔ (t.mapOperands (resolve earlier)).isSelfAssign = true := by
  simp only [SelfAssigns, isSelfAssign, mapOperands, hop, Bool.and_eq_true, decide_eq_true_eq,
    Bool.not_eq_true', true_and, and_assoc]
  refine and_congr_right fun _ => ?_
  constructor
  · rintro ⟨name, hlhs, hrhs⟩
    rw [hlhs]
    exact ⟨rfl, hrhs⟩
  · rintro ⟨hvar, hrhs⟩
    cases hlhs : resolve earlier t.lhs with
    | var name => exact ⟨name, rfl, hlhs ▸ hrhs⟩
    | _ => simp [hlhs, Operand.var?] at hvar

/-- Merging removes no assignment, since only triples with a result are duplicates of each other. By
induction on the rounds. -/
theorem mem_ids_mergeAll_of_assign (hu : u ∈ triples) (hop : u.op = .assign) :
    u.id ∈ (mergeAll triples).map Triple.id := by
  have hassign : ∃ v ∈ mergeAll triples, v.id = u.id ∧ v.op = .assign := by
    refine mergeAll_induction (P := fun triples => ∃ v ∈ triples, v.id = u.id ∧ v.op = .assign)
      (fun d hd => ?_) ⟨u, hu, rfl, hop⟩
    rintro ⟨v, hv, hid, hop⟩
    simp only [Duplicate.original, List.mem_append, List.mem_cons] at hv
    simp only [Duplicate.merged, List.mem_append, List.mem_cons, List.mem_map]
    rcases hv with (hv | rfl | hv) | rfl | hv
    · exact ⟨v, .inl (.inl hv), hid, hop⟩
    · exact absurd hop hd.first
    · exact ⟨v, .inl (.inr (.inr hv)), hid, hop⟩
    · exact absurd hop hd.last
    · exact ⟨v.rename d.last.id (.temp d.first.id), .inr ⟨v, hv, rfl⟩, hid, hop⟩
  obtain ⟨v, hv, hid, _⟩ := hassign
  exact hid ▸ List.mem_map_of_mem hv

/-- An assignment is dropped exactly if it assigns a variable to itself once references are
followed. Strength reduction takes such a one away, and neither it nor merging takes away
another. -/
theorem not_mem_ids_optimize_iff {pre post : List Triple}
    (h : Orderly symbols wide [] (widthsOf []) (pre ++ t :: post)) (hop : t.op = .assign) :
    t.id ∉ (optimize symbols (pre ++ t :: post)).map Triple.id ↔ t.SelfAssigns pre.reverse := by
  rw [optimize, reduce_eq h, reduceAll_eq h]
  let resolved := t.mapOperands (resolve pre.reverse)
  have hpre : ∀ v ∈ pre.reverse, v.WellFormed := fun v hv => h.wellFormed v (by simp_all)
  have hwell : resolved.WellFormed :=
    (h.wellFormed t (by simp)).mapOperands (replaces_resolve hpre)
  have hmem : resolved ∈ resolveAll [] (pre ++ t :: post) := by
    rw [resolveAll_append, List.append_nil]
    exact List.mem_append_right _ List.mem_cons_self
  -- An assignment adds nothing, so it is no addition of zero.
  have hzero : ∀ o, ¬resolved.AddsZeroTo o := by
    have hop : resolved.op = .assign := hop
    rintro o (⟨hsum | hsum, _⟩ | ⟨hsum, _⟩) <;> simp [hsum] at hop
  have hnodup : ((resolveAll [] (pre ++ t :: post)).map Triple.id).Nodup := by
    rw [ids_resolveAll]
    exact h.nodup
  rw [selfAssigns_iff hop]
  constructor
  · intro hdropped
    by_contra hself
    cases fate hwell with
    | identity o _ hadds => exact hzero o hadds
    | selfAssign _ hassign => exact hself hassign
    | kept t' hreduced _ _ hkept =>
      have hkept? : resolved.kept? = some t' := by
        rcases hreduced with hreduced | hreduced <;> simp [kept?, hreduced]
      have hop' : t'.op = .assign := by
        rcases hkept.same with rfl | ⟨hsum, _⟩
        · exact hop
        · have hop : resolved.op = .assign := hop
          rcases hsum with hsum | hsum | hsum | hsum <;> simp [hsum] at hop
      refine hdropped (hkept.id ▸ mem_ids_mergeAll_of_assign ?_ hop')
      exact List.mem_filterMap.mpr ⟨resolved, hmem, hkept?⟩
  · intro hself hmerged
    -- If the assignment were still there, strength reduction would have kept a triple of its
    -- number, and numbers are unique.
    have hids : t.id ∈ ((resolveAll [] (pre ++ t :: post)).filterMap kept?).map Triple.id :=
      (mergeAll_induction (P := fun triples => List.Sublist (triples.map Triple.id) _)
        (fun d _ h => sublist_merged.trans h) (List.Sublist.refl _)).subset hmerged
    obtain ⟨v, hv, hid⟩ := List.mem_map.mp hids
    obtain ⟨u, hu, hkept?⟩ := List.mem_filterMap.mp hv
    have hwellu : u.WellFormed := by
      obtain ⟨pre', w, post', hsplit, rfl⟩ := mem_resolveAll hu
      refine (h.wellFormed w (by simp [hsplit])).mapOperands (replaces_resolve fun x hx => ?_)
      exact h.wellFormed x (by simp_all)
    obtain rfl : u = resolved := by
      refine List.inj_on_of_nodup_map hnodup hu hmem ?_
      exact ((keptAs_of_kept? hwellu hkept?).id.symm.trans hid)
    cases fate hwell with
    | identity o _ hadds => exact hzero o hadds
    | selfAssign hreduced => simp [kept?, hreduced] at hkept?
    | kept t' _ _ hnot => simp [resolved, hself] at hnot

end Triple

/-! ## Drafts -/

namespace Draft

open Triple (Coherent optimize)

variable {d : Draft}

/-- The draft of any events is coherent, and so is the optimized draft. Numbers are below the next
one, what is on the stack is the result of a triple, optimizing only leaves triples out, and of the
assignments it leaves out those that assign a variable to itself. -/
theorem coherent_afterEvents (events : List Event) :
    let d := afterEvents {} events
    let optimized := optimize d.symbols d.triples
    Coherent d.symbols d.triples ∧ Coherent d.symbols optimized ∧
      (∀ t ∈ d.triples, t.id < d.nextId) ∧
      (∀ id, .temp id ∈ d.stack → ∃ t ∈ d.triples, t.id = id ∧ t.op ≠ .assign) ∧
      List.Sublist (optimized.map Triple.id) (d.triples.map Triple.id) ∧
      ∀ pre t post, d.triples = pre ++ t :: post → t.op = .assign →
        (t.id ∉ optimized.map Triple.id ↔ t.SelfAssigns pre.reverse) := by
  intro d optimized
  have hvalid : Valid true d := valid_afterEvents events valid_empty
  -- What is drafted names declared variables only, and indexes only arrays.
  have hgrounded : ∀ t ∈ d.triples, t.Grounded d.symbols := by
    refine fun t ht => ⟨hvalid.declared t ht, fun hop => ?_⟩
    obtain ⟨name, hname⟩ := (hvalid.orderly.wellFormed t ht).indexesVar hop
    exact ⟨name, hname, hvalid.arrays t ht hop name hname⟩
  have hsublist := Triple.sublist_optimize hvalid.orderly
  refine ⟨?_, ?_, hvalid.numbered, fun id hid => ?_, hsublist, fun pre t post hsplit hop => ?_⟩
  · exact Triple.coherent_of_orderly hvalid.orderly hvalid.increasing hgrounded
  · exact Triple.coherent_of_orderly (Triple.orderly_optimize hvalid.orderly)
      (hvalid.increasing.sublist hsublist) (Triple.grounded_optimize hvalid.orderly hgrounded)
  · have hscope : id ∈ d.scope true := hvalid.usable _ hid
    exact (Triple.mem_scopeAfter_wide hscope).resolve_left List.not_mem_nil
  · have horderly := hvalid.orderly
    rw [hsplit] at horderly
    simp only [optimized, hsplit]
    exact Triple.not_mem_ids_optimize_iff horderly hop

/-- `(x + 0) := x`. -/
def computedTarget : List Event :=
  [.declare "x" .byte, .reference "x", .literal 0, .operator .add, .reference "x", .assign false]

/-- The target of an assignment that is dropped need not be a variable as it stands. -/
theorem optimize_drops_computed_target :
    let d := afterEvents {} computedTarget
    ∃ t ∈ d.triples, t.op = .assign ∧ t.lhs.var? = none ∧
      t.id ∉ (optimize d.symbols d.triples).map Triple.id := by
  intro d
  have hdropped : (d.triples.any fun t => t.op = .assign && t.lhs.var?.isNone &&
      !((optimize d.symbols d.triples).map Triple.id).contains t.id) = true := by
    cbv
  obtain ⟨t, ht, hdropped⟩ := List.any_eq_true.mp hdropped
  simp only [Bool.and_eq_true, decide_eq_true_eq, Option.isNone_iff_eq_none, Bool.not_eq_true',
    List.contains_eq_mem, decide_eq_false_iff_not] at hdropped
  exact ⟨t, ht, hdropped.1.1, hdropped.1.2, hdropped.2⟩

end Draft

end Accumulator
