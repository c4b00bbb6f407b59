import Mathlib
import Accumulator.Proofs.Triple.Coherent

/-!
# Optimizing and illegal triples

A triple is illegal if it assigns to a value, takes the address of a value, uses a byte as a pointer
or stores a word through a pointer. Whether it is depends on what its operands refer to, and
optimizing changes that: `(x + 0) := 5` is illegal until the sum is replaced by `x`, and `*(b + 0)`
becomes illegal when the sum is replaced by the byte `b`. Apart from this, optimizing neither adds
nor removes illegal triples: an optimized list has one exactly if the list has one whose references
are followed through additions of zero (`hasIllegal_optimize`).
-/

namespace Accumulator

namespace Triple

variable {symbols : SymbolTable} {wide : Bool} {widths : Nat → Width} {t u : Triple}
  {triples triples' : List Triple} {o : Operand}

/-- The operand is the result of a triple with one of the given operators. -/
def isResultOf (triples : List Triple) (ops : List Op) : Operand → Bool
  | .temp id => (find? triples id).any (ops.contains ·.op)
  | _ => false

/-- The operand names storage: a variable, or the result of one of the given operators. -/
def isPlace (triples : List Triple) (ops : List Op) (o : Operand) : Bool :=
  o.var?.isSome || isResultOf triples ops o

/-- The operand is a variable of one byte. -/
def isByteVar (symbols : SymbolTable) : Operand → Bool
  | .var name => symbols.widthOf name = .byte
  | _ => false

/-- The triple has no code. -/
def isIllegal (symbols : SymbolTable) (triples : List Triple) (t : Triple) : Bool :=
  match t.op with
  | .assign =>
    if t.throughPointer then
      isByteVar symbols t.lhs || t.rhs.any (·.width triples symbols = .word)
    else
      !isPlace triples [.index, .deref] t.lhs
  | .address => !isPlace triples [.index] t.lhs
  | .deref => isByteVar symbols t.lhs
  | _ => false

/-- Some triple of the list has no code. -/
def hasIllegal (symbols : SymbolTable) (triples : List Triple) : Bool :=
  triples.any (isIllegal symbols triples)

/-! ## What legality depends on -/

/-- What others can tell of a triple: whether it names storage, and the width of its result. -/
def shape (t : Triple) : Bool × Bool × Width :=
  (t.op = .index, t.op = .deref, t.resultWidth)

/-- The shape of what a reference refers to. -/
def shapeOf (triples : List Triple) (id : Nat) : Option (Bool × Bool × Width) :=
  (find? triples id).map shape

/-- Replacing references by others to triples of the same shape. -/
structure SameShapes (triples triples' : List Triple) (t : Triple) (f : Operand → Operand) :
    Prop where
  fixed : ∀ o, o.temp? = none → f o = o
  temp : ∀ id ∈ t.refs, ∃ j, f (.temp id) = .temp j ∧ shapeOf triples' j = shapeOf triples id

/-- References to triples of the same shape are told from each other by nothing that legality looks
at. -/
theorem isResultOf_congr (symbols : SymbolTable) {i j : Nat}
    (h : shapeOf triples' j = shapeOf triples i) :
    isResultOf triples' [.index, .deref] (.temp j) = isResultOf triples [.index, .deref] (.temp i) ∧
      isResultOf triples' [.index] (.temp j) = isResultOf triples [.index] (.temp i) ∧
      (Operand.temp j).width triples' symbols = (Operand.temp i).width triples symbols := by
  unfold shapeOf at h
  simp only [isResultOf, Operand.width]
  cases hi : find? triples i with
  | none =>
    rw [hi] at h
    have hj : find? triples' j = none := by simpa using h
    simp [hj]
  | some u =>
    rw [hi] at h
    obtain ⟨v, hj, hshape⟩ := Option.map_eq_some_iff.mp h
    simp only [shape, Prod.mk.injEq, decide_eq_decide] at hshape
    simp [hj, hshape]

/-- Legality depends on the shapes of what is referred to only. -/
theorem isIllegal_mapOperands {f : Operand → Operand} (h : SameShapes triples triples' t f) :
    (t.mapOperands f).isIllegal symbols triples' = t.isIllegal symbols triples := by
  have hoperand : ∀ o ∈ t.lhs :: t.rhs.toList,
      isPlace triples' [.index, .deref] (f o) = isPlace triples [.index, .deref] o ∧
      isPlace triples' [.index] (f o) = isPlace triples [.index] o ∧
      (f o).width triples' symbols = o.width triples symbols ∧
      isByteVar symbols (f o) = isByteVar symbols o := by
    intro o ho
    cases o with
    | const c => rw [h.fixed (.const c) rfl]; exact ⟨rfl, rfl, rfl, rfl⟩
    | var name => rw [h.fixed (.var name) rfl]; exact ⟨rfl, rfl, rfl, rfl⟩
    | temp i =>
      obtain ⟨j, hj, hshape⟩ := h.temp i (mem_refs.mpr (refersTo_of_mem ho))
      obtain ⟨hresult, hindex, hwidth⟩ := isResultOf_congr symbols hshape
      rw [hj]
      exact ⟨hresult, hindex, hwidth, rfl⟩
  obtain ⟨hplace, hindex, _, hbyte⟩ := hoperand t.lhs List.mem_cons_self
  have hrhs : (t.rhs.map f).any (·.width triples' symbols = .word) =
      t.rhs.any (·.width triples symbols = .word) := by
    cases hrhs : t.rhs with
    | none => rfl
    | some o => simp [(hoperand o (by simp [hrhs])).2.2.1]
  simp only [isIllegal, mapOperands, hplace, hindex, hbyte, hrhs]

/-- A triple is as legal in another list, if what it refers to has the same shape there. -/
theorem isIllegal_congr (h : ∀ id ∈ t.refs, shapeOf triples' id = shapeOf triples id) :
    t.isIllegal symbols triples' = t.isIllegal symbols triples := by
  conv => lhs; rw [← mapOperands_id t]
  exact isIllegal_mapOperands ⟨fun _ _ => rfl, fun id hid => ⟨id, rfl, h id hid⟩⟩

theorem not_isIllegal_of_isSum (h : t.IsSum) : t.isIllegal symbols triples = false := by
  rcases h with hop | hop | hop | hop <;> simp [isIllegal, hop]

theorem not_isIllegal_of_isSelfAssign (h : t.isSelfAssign = true) :
    t.isIllegal symbols triples = false := by
  simp only [isSelfAssign, Bool.and_eq_true, decide_eq_true_eq, Bool.not_eq_true'] at h
  obtain ⟨⟨⟨hop, hthrough⟩, hvar⟩, _⟩ := h
  simp [isIllegal, hop, hthrough, isPlace, hvar]

theorem shape_of_isSum (h : t.IsSum) : t.shape = (false, false, t.resultWidth) := by
  rcases h with hop | hop | hop | hop <;> simp [shape, hop]

/-- A triple is found by its number. -/
theorem shapeOf_of_mem (hnodup : (triples.map Triple.id).Nodup) (ht : t ∈ triples) :
    shapeOf triples t.id = some t.shape := by
  have hfind : find? triples t.id = some t := by
    cases h : find? triples t.id with
    | none =>
      have hnone := List.find?_eq_none.mp h t ht
      simp at hnone
    | some u =>
      have hid : u.id = t.id := by simpa using List.find?_some h
      rw [List.inj_on_of_nodup_map hnodup (List.mem_of_find?_eq_some h) ht hid]
  rw [shapeOf, hfind, Option.map_some]

theorem any_congr_of_mem {f g : Triple → Bool} (h : ∀ t ∈ triples, f t = g t) :
    triples.any f = triples.any g := by
  induction triples with
  | nil => rfl
  | cons t rest ih =>
    obtain ⟨ht, hrest⟩ := List.forall_mem_cons.mp h
    rw [List.any_cons, List.any_cons, ht, ih hrest]

/-! ## Strength reduction -/

/-- Of a list whose references have been followed nothing illegal is lost or added. The triples that
are taken away are sums or assign a variable to itself, and these are legal. -/
theorem hasIllegal_reduceAll (h : Orderly symbols wide [] (widthsOf []) triples) :
    hasIllegal symbols (reduceAll triples).triples =
      hasIllegal symbols (resolveAll [] triples) := by
  have horderly := (orderly_reduceAll h).1
  rw [reduceAll_eq h] at horderly ⊢
  have hwell : ∀ u ∈ resolveAll [] triples, u.WellFormed := by
    intro u hu
    obtain ⟨pre, t, post, rfl, rfl⟩ := mem_resolveAll hu
    refine (h.wellFormed t (by simp)).mapOperands (replaces_resolve fun v hv => ?_)
    exact h.wellFormed v (by simp_all)
  have hnodup : ((resolveAll [] triples).map Triple.id).Nodup := by
    rw [ids_resolveAll]
    exact h.nodup
  -- What a kept triple refers to is kept, and in the same shape.
  have hshape : ∀ t ∈ (resolveAll [] triples).filterMap kept?, ∀ id ∈ t.refs,
      shapeOf ((resolveAll [] triples).filterMap kept?) id =
        shapeOf (resolveAll [] triples) id := by
    intro t ht id hid
    rcases mem_of_refs horderly.inScope ht hid with hnil | ⟨u', hu', rfl⟩
    · cases hnil
    · obtain ⟨u, hu, hkept⟩ := List.mem_filterMap.mp hu'
      have hkeptAs := keptAs_of_kept? (hwell u hu) hkept
      rw [shapeOf_of_mem horderly.nodup hu', hkeptAs.id, shapeOf_of_mem hnodup hu]
      rcases hkeptAs.same with rfl | ⟨hsum, hsum'⟩
      · rfl
      · rw [shape_of_isSum hsum, shape_of_isSum hsum', hkeptAs.resultWidth]
  have hkept : ∀ u ∈ resolveAll [] triples, u.kept?.any
      (isIllegal symbols ((resolveAll [] triples).filterMap kept?)) =
        u.isIllegal symbols (resolveAll [] triples) := by
    intro u hu
    cases fate (hwell u hu) with
    | identity o hreduced hzero =>
      have hsum : u.IsSum := by
        rcases hzero with ⟨hop | hop, _⟩ | ⟨hop, _⟩
        · exact .inl hop
        · exact .inr (.inl hop)
        · exact .inl hop
      simp [kept?, hreduced, not_isIllegal_of_isSum hsum]
    | selfAssign hreduced hself =>
      simp [kept?, hreduced, not_isIllegal_of_isSelfAssign hself]
    | kept u' hreduced _ _ hkeptAs =>
      have hkept : u.kept? = some u' := by
        rcases hreduced with hreduced | hreduced <;> simp [kept?, hreduced]
      rw [hkept, Option.any_some]
      rcases hkeptAs.same with rfl | ⟨hsum, hsum'⟩
      · exact isIllegal_congr (hshape u' (List.mem_filterMap.mpr ⟨u', hu, hkept⟩))
      · rw [not_isIllegal_of_isSum hsum, not_isIllegal_of_isSum hsum']
  rw [hasIllegal, hasIllegal, List.any_filterMap, ← any_congr_of_mem hkept]
  refine any_congr_of_mem fun u _ => ?_
  cases u.kept? <;> rfl

/-! ## Merging -/

namespace Duplicate

variable {d : Duplicate}

/-- Triples other than the one that is removed look the same from outside. -/
theorem shapeOf_merged {id : Nat} (hid : id ≠ d.last.id) :
    shapeOf d.merged id = shapeOf d.original id := by
  let outside : Triple → Nat × Bool × Bool × Width := fun t => (t.id, t.shape)
  have houtside (xs : List Triple) :
      shapeOf xs id = ((xs.map outside).find? (·.1 = id)).map Prod.snd := by
    rw [List.find?_map, Option.map_map]
    rfl
  have hmerged : d.merged.map outside =
      (d.before ++ d.first :: d.between).map outside ++ d.rest.map outside := by
    simp only [merged, List.map_append, List.map_cons, List.map_map]
    rfl
  have horiginal : d.original.map outside =
      (d.before ++ d.first :: d.between).map outside ++ outside d.last :: d.rest.map outside :=
    List.map_append
  have hlast : (outside d.last :: d.rest.map outside).find? (·.1 = id) =
      (d.rest.map outside).find? (·.1 = id) :=
    List.find?_cons_of_neg (by simpa [outside] using Ne.symm hid)
  rw [houtside, houtside, hmerged, horiginal, List.find?_append, List.find?_append, hlast]

/-- Two triples that are merged have the same shape. -/
theorem shape_last (hd : d.Mergeable) (h : Orderly symbols true [] (widthsOf []) d.original) :
    d.first.shape = d.last.shape := by
  have hsame := hd.same
  simp only [sameExpression, Bool.and_eq_true, decide_eq_true_eq] at hsame
  simp only [shape, hsame.1.1, hd.resultWidth (hd.width h)]

/-- The same expression is as legal the second time. -/
theorem isIllegal_of_sameExpression (hsame : t.sameExpression u = true) (hop : t.op ≠ .assign) :
    t.isIllegal symbols triples = u.isIllegal symbols triples := by
  simp only [sameExpression, Bool.and_eq_true, decide_eq_true_eq] at hsame
  obtain ⟨⟨hopu, hlhs⟩, _⟩ := hsame
  unfold isIllegal
  rw [← hopu, ← hlhs]
  split
  next hassign => exact absurd hassign hop
  next => rfl
  next => rfl
  next => rfl

/-- Merging loses and adds nothing illegal. The triple that goes is as legal as the one that stays
in its place, and references to it lead to a triple of the same shape. -/
theorem hasIllegal_merged (hd : d.Mergeable)
    (h : Orderly symbols true [] (widthsOf []) d.original) :
    hasIllegal symbols d.merged = hasIllegal symbols d.original := by
  have hfirst : d.first ∈ d.original := by simp [original]
  have hlast : d.last ∈ d.original := by simp [original]
  have hne : d.first.id ≠ d.last.id := (orderly_first h).ne_id d.last (by simp)
  -- Before the triple that is removed nothing refers to it.
  have hfront : ∀ t ∈ d.before ++ d.first :: d.between,
      t.isIllegal symbols d.merged = t.isIllegal symbols d.original := by
    intro t ht
    refine isIllegal_congr fun id hid => shapeOf_merged ?_
    rintro rfl
    rcases mem_of_refs (scoped_append.mp h.inScope).1 ht hid with hnil | ⟨u, hu, hid⟩
    · cases hnil
    · have hnodup := h.nodup
      rw [original, List.map_append, List.nodup_append] at hnodup
      exact hnodup.2.2 _ (List.mem_map_of_mem hu) d.last.id (by simp) hid
  -- After it every reference to it has become one to a triple of the same shape.
  have hrest : ∀ t ∈ d.rest, (t.rename d.last.id (.temp d.first.id)).isIllegal symbols d.merged =
      t.isIllegal symbols d.original := by
    intro t _
    have hrename : t.rename d.last.id (.temp d.first.id) =
        t.mapOperands fun o => if o = .temp d.last.id then .temp d.first.id else o := rfl
    rw [hrename]
    refine isIllegal_mapOperands ⟨fun o ho => ?_, fun id _ => ?_⟩
    · exact if_neg fun heq => by simp [heq, Operand.temp?] at ho
    · by_cases hid : id = d.last.id
      · refine ⟨d.first.id, by simp [hid], ?_⟩
        rw [hid, shapeOf_merged hne, shapeOf_of_mem h.nodup hfirst, shapeOf_of_mem h.nodup hlast,
          shape_last hd h]
      · exact ⟨id, by simp [hid], shapeOf_merged hid⟩
  have habsorb : (d.first.absorb d.last).isIllegal symbols d.merged =
      d.first.isIllegal symbols d.merged := rfl
  rw [List.forall_mem_append, List.forall_mem_cons] at hfront
  obtain ⟨hbefore, hfirst, hbetween⟩ := hfront
  have hsame : d.first.isIllegal symbols d.original = d.last.isIllegal symbols d.original :=
    isIllegal_of_sameExpression hd.same hd.first
  have hmerged : hasIllegal symbols d.merged =
      (d.before.any (isIllegal symbols d.original) || (d.first.isIllegal symbols d.original ||
        d.between.any (isIllegal symbols d.original)) ||
        d.rest.any (isIllegal symbols d.original)) := by
    rw [hasIllegal]
    conv => lhs; arg 1; rw [merged]
    rw [List.any_append, List.any_append, List.any_cons, List.any_map, Function.comp_def, habsorb,
      hfirst, any_congr_of_mem hbefore, any_congr_of_mem hbetween, any_congr_of_mem hrest]
  have horiginal : hasIllegal symbols d.original =
      (d.before.any (isIllegal symbols d.original) || (d.first.isIllegal symbols d.original ||
        d.between.any (isIllegal symbols d.original)) ||
        (d.last.isIllegal symbols d.original || d.rest.any (isIllegal symbols d.original))) := by
    rw [hasIllegal]
    conv => lhs; arg 1; rw [original]
    rw [List.any_append, List.any_append, List.any_cons, List.any_cons]
  rw [hmerged, horiginal, hsame]
  cases d.last.isIllegal symbols d.original <;> simp

end Duplicate

/-- Merging duplicates loses and adds nothing illegal. -/
theorem hasIllegal_mergeAll (h : Orderly symbols true [] (widthsOf []) triples) :
    hasIllegal symbols (mergeAll triples) = hasIllegal symbols triples := by
  refine (mergeAll_induction (P := fun merged => Orderly symbols true [] (widthsOf []) merged ∧
    hasIllegal symbols merged = hasIllegal symbols triples) (fun d hd hP => ?_) ⟨h, rfl⟩).2
  exact ⟨hd.orderly hP.1, (Duplicate.hasIllegal_merged hd hP.1).trans hP.2⟩

end Triple

namespace Draft

open Triple (hasIllegal optimize resolveAll)

/-- The optimized triples of accepted events have an illegal one exactly if the triples have one
whose references are followed through additions of zero. -/
theorem hasIllegal_optimize {events : List Event} {d : Draft} (h : ofEvents events = .ok d) :
    hasIllegal d.symbols (optimize d.symbols d.triples) =
      hasIllegal d.symbols (resolveAll [] d.triples) := by
  have horderly := (valid_ofEvents h).orderly
  have hreduced := (Triple.orderly_reduceAll horderly).1
  rw [optimize, Triple.reduce_eq horderly, Triple.hasIllegal_mergeAll,
    Triple.hasIllegal_reduceAll horderly]
  exact { hreduced with inScope := hreduced.inScope.mono (fun _ => rfl) fun _ hid => hid }

/-- `(x + 0) := 5`. -/
def computedAssignment : List Event :=
  [.declare "x" .byte, .reference "x", .literal 0, .operator .add, .literal 5, .assign false]

/-- `x := *(x + 0)`, where `x` is a byte. -/
def bytePointer : List Event :=
  [.declare "x" .byte, .reference "x", .reference "x", .literal 0, .operator .add, .dereference,
    .assign false]

/-- Whether events are accepted, and are illegal before and after they are optimized. -/
def legality (events : List Event) : Option (Bool × Bool) :=
  (ofEvents events).toOption.map fun d =>
    (hasIllegal d.symbols d.triples, hasIllegal d.symbols (optimize d.symbols d.triples))

/-- What is computed of events, as a statement about their draft. -/
theorem exists_of_legality {events : List Event} {before after : Bool}
    (h : legality events = some (before, after)) :
    ∃ d, ofEvents events = .ok d ∧ hasIllegal d.symbols d.triples = before ∧
      hasIllegal d.symbols (optimize d.symbols d.triples) = after := by
  unfold legality at h
  cases hevents : ofEvents events with
  | error reason => simp [hevents, Except.toOption] at h
  | ok d =>
    rw [hevents] at h
    have hpair := Option.some.inj h
    exact ⟨d, rfl, congrArg Prod.fst hpair, congrArg Prod.snd hpair⟩

/-- In this example the draft is legal, and it is illegal once references are followed: what is
dereferenced is then the byte itself. -/
theorem hasIllegal_optimize_bytePointer :
    ∃ d, ofEvents bytePointer = .ok d ∧ hasIllegal d.symbols d.triples = false ∧
      hasIllegal d.symbols (resolveAll [] d.triples) = true := by
  have hlegality : legality bytePointer = some (false, true) := by cbv
  obtain ⟨d, hd, hbefore, hafter⟩ := exists_of_legality hlegality
  exact ⟨d, hd, hbefore, (hasIllegal_optimize hd).symm.trans hafter⟩

/-- Optimizing as such may make an illegal list legal, and a legal one illegal. -/
theorem optimize_changes_legality :
    (∃ d, ofEvents computedAssignment = .ok d ∧ hasIllegal d.symbols d.triples = true ∧
      hasIllegal d.symbols (optimize d.symbols d.triples) = false) ∧
    ∃ d, ofEvents bytePointer = .ok d ∧ hasIllegal d.symbols d.triples = false ∧
      hasIllegal d.symbols (optimize d.symbols d.triples) = true := by
  have hassign : legality computedAssignment = some (true, false) := by cbv
  have hpointer : legality bytePointer = some (false, true) := by cbv
  exact ⟨exists_of_legality hassign, exists_of_legality hpointer⟩

end Draft

end Accumulator
