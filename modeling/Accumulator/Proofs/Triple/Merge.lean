import Mathlib.Data.List.Nodup
import Accumulator.Proofs.Triple.Scope

/-!
# Merging duplicates keeps the meaning

A duplicate is removed when no assignment between it and the earlier triple may change what they
compute. Assignments to different variables do not disturb each other because variables share no
storage, and the place of an element lies in the storage of its array (`Placed`). So the earlier
triple would give the same result again where the duplicate stands (`result?_of_run`), and
references to the duplicate may be renamed to it.
-/

namespace Accumulator.Triple

variable {symbols : SymbolTable} {triples : List Triple} {s s₁ : Store} {t u v : Triple}
  {r : Result}

/-! ## What an assignment can change -/

/-- The places of elements lie in the storage of their arrays. -/
def Placed (symbols : SymbolTable) (triples : List Triple) (s : Store) : Prop :=
  ∀ u ∈ triples, u.op = .index → ∀ name, u.lhs = .var name → ∀ r p, s.results u.id = some r →
    r.place = some p → ∀ a ∈ p.cells, a ∈ symbols.storage name

/-- There are no places before the first triple. -/
theorem placed_start {memory : Memory} : Placed symbols triples { memory } := by
  intro u _ _ name _ r p hr
  cases hr

/-- A step records at most one result, and an element lies in the storage of its array. -/
theorem Placed.step (h : Placed symbols triples s) (hnodup : (triples.map Triple.id).Nodup)
    (ht : t ∈ triples) (hstep : t.step symbols s = some s₁) : Placed symbols triples s₁ := by
  rcases step_cases hstep with ⟨_, memory, _, rfl⟩ | ⟨_, r, hr, rfl⟩
  · exact h
  · intro u hu hop name hlhs r' p hr' hp
    simp only [Store.record] at hr'
    split at hr'
    next hid =>
      cases hr'
      obtain rfl : u = t := List.inj_on_of_nodup_map hnodup hu ht hid
      simp only [result?, hop] at hr
      obtain ⟨q, hq, rfl⟩ := Option.map_eq_some_iff.mp hr
      cases hp
      rcases source?_eq_some hq with ⟨base, _, _, _, hbase, _, _, helement⟩ | ⟨_, hderef, _⟩
      · obtain rfl : base = name := Operand.var.inj (hbase.symm.trans hlhs)
        exact SymbolTable.element?_subset_storage helement
      · rw [hop] at hderef
        cases hderef
    next => exact h u hu hop name hlhs r' p hr' hp

/-- What an assignment overwrites lies in the variable that it is said to clobber. For an element
this is its array, and for a pointer nothing is said. -/
theorem storage_of_clobber (hsymbols : symbols.Separate) (hplaced : Placed symbols triples s)
    {p : Place} (h : t.target? symbols s = some p) :
    clobber triples t = .unknown ∨
      ∃ name, clobber triples t = .var name ∧ ∀ a ∈ p.cells, a ∈ symbols.storage name := by
  unfold target? at h
  unfold clobber
  split at h
  next hthrough => exact .inl (if_pos hthrough)
  next hthrough =>
    rw [if_neg hthrough]
    cases hlhs : t.lhs with
    | const => simp [hlhs, Operand.place?] at h
    | var name =>
      rw [hlhs] at h
      exact .inr ⟨name, rfl, SymbolTable.place?_subset_storage hsymbols h⟩
    | temp id =>
      rw [hlhs] at h
      dsimp only
      split
      -- The target is an element, and its place is known to lie in the array.
      next _ base _ _ _ _ _ hfind =>
        obtain ⟨r, hr, hp⟩ := Option.bind_eq_some_iff.mp h
        have hid := List.find?_some hfind
        have hmem := List.mem_of_find?_eq_some hfind
        simp only [decide_eq_true_eq] at hid
        subst hid
        exact .inr ⟨base, rfl, hplaced _ hmem rfl base rfl r p hr hp⟩
      next => exact .inl rfl

/-- An assignment that does not change a triple leaves its result alone. -/
theorem result?_of_assign (hsymbols : symbols.Separate) (hplaced : Placed symbols triples s)
    (hv : v.op = .assign) (hstep : v.step symbols s = some s₁)
    (hkept : u.op = .address ∨ isChangedBy triples u v = false)
    (hr : u.result? symbols s = some r) : u.result? symbols s₁ = some r := by
  rcases step_cases hstep with ⟨_, memory, hmemory, rfl⟩ | ⟨hne, _⟩
  · simp only [assigned?, Option.bind_eq_bind, Option.bind_eq_some_iff, Option.pure_def,
      Option.some.injEq] at hmemory
    obtain ⟨_, _, value, _, p, hp, rfl⟩ := hmemory
    -- A variable that is read is not the one that is overwritten.
    have hdisjoint : ∀ name, .var name ∈ u.operands → u.op ≠ .address →
        ∀ a ∈ symbols.storage name, a ∉ p.cells := by
      intro name hname hop a ha hcell
      have hchanged := hkept.resolve_left hop
      simp only [isChangedBy] at hchanged
      split at hchanged
      next => cases hchanged
      next hderef =>
        have hmem : name ∈ u.operands.filterMap Operand.var? :=
          List.mem_filterMap.mpr ⟨_, hname, rfl⟩
        rcases storage_of_clobber hsymbols hplaced hp with hunknown | ⟨other, hother, hcells⟩
        · simp only [hunknown, Bool.or_eq_false_iff, Bool.not_eq_false',
            List.isEmpty_iff] at hchanged
          simp [hchanged.1] at hmem
        · simp only [hother, List.contains_eq_mem, decide_eq_false_iff_not] at hchanged
          have hne : name ≠ other := fun heq => hchanged (heq ▸ hmem)
          exact hsymbols.disjoint_of_ne hne a ha (hcells a hcell)
    rw [← mapOperands_id u]
    refine result?_mapOperands replaces_id (fun hop o ho w hw => ?_) (fun q hq => ?_)
      (fun q hq => ?_) hr
    · cases o with
      | const | temp => exact hw
      | var name =>
        obtain ⟨q, hq, rfl⟩ := Option.map_eq_some_iff.mp hw
        have hcells := SymbolTable.place?_subset_storage hsymbols hq
        refine Option.map_eq_some_iff.mpr ⟨q, hq, Place.read_write_of_disjoint fun a ha => ?_⟩
        exact hdisjoint name ho hop a (hcells a ha)
    · cases hlhs : u.lhs <;> rwa [hlhs] at hq
    · refine Place.read_write_of_disjoint fun a ha => ?_
      rcases source?_eq_some hq with ⟨base, index, w, hop, hlhs, hrhs, _, helement⟩ | ⟨_, hop, _⟩
      · have hmem : .var base ∈ u.operands := by simp [operands, hop, hlhs]
        exact hdisjoint base hmem (by simp [hop]) a
          (SymbolTable.element?_subset_storage helement a ha)
      · simp [hop, isChangedBy] at hkept
  · exact absurd hv hne

/-- A result is the same again after a triple that leaves no other result that it refers to. -/
theorem result?_of_ne_assign (hv : v.op ≠ .assign) (hstep : v.step symbols s = some s₁)
    (hfresh : v.id ∉ u.refs) (hr : u.result? symbols s = some r) :
    u.result? symbols s₁ = some r := by
  have hmemory := memory_of_step hstep hv
  have hresults : ∀ j, .temp j ∈ u.lhs :: u.rhs.toList → s₁.results j = s.results j := by
    intro j hj
    refine results_of_step hstep fun hid => hfresh ?_
    exact hid ▸ mem_refs.mpr (refersTo_of_mem hj)
  rw [← mapOperands_id u]
  refine result?_mapOperands replaces_id (fun _ o ho w hw => ?_) (fun q hq => ?_)
    (fun q _ => by rw [hmemory]) hr
  · cases o with
    | const => exact hw
    | var name => rwa [Operand.value?, hmemory]
    | temp j => rwa [Operand.value?, hresults j (operands_subset ho)]
  · cases hlhs : u.lhs with
    | const | var => rwa [hlhs] at hq
    | temp j =>
      rw [hlhs] at hq
      rwa [Operand.place?, hresults j (by simp [hlhs])]

/-! ## From one triple to another -/

/-- A triple gives the same result again unless something in between may change it. By induction on
the triples in between: an assignment leaves what it does not clobber, and any other triple leaves
memory alone. -/
theorem result?_of_run (hsymbols : symbols.Separate) (hnodup : (triples.map Triple.id).Nodup)
    {between : List Triple} (hplaced : Placed symbols triples s)
    (hbetween : ∀ v ∈ between, v ∈ triples) (hfresh : ∀ v ∈ between, v.id ∉ u.refs)
    (hblocked : isBlocked triples between u = false) (hrun : run symbols between s = some s₁)
    (hr : u.result? symbols s = some r) : u.result? symbols s₁ = some r := by
  induction between generalizing s with
  | nil =>
    cases hrun
    exact hr
  | cons v between ih =>
    obtain ⟨hv, hbetween⟩ := List.forall_mem_cons.mp hbetween
    obtain ⟨hvu, hfresh⟩ := List.forall_mem_cons.mp hfresh
    obtain ⟨s₂, hstep, hrun⟩ := run_cons.mp hrun
    -- An address never changes; anything else is checked against each assignment.
    have hkept : u.op = .address ∨ (v.op = .assign → isChangedBy triples u v = false) ∧
        isBlocked triples between u = false := by
      by_cases hop : u.op = .address
      · exact .inl hop
      · simp only [isBlocked, hop, List.any_cons, ne_eq, not_false_eq_true, decide_true,
          Bool.true_and, Bool.or_eq_false_iff, Bool.and_eq_false_imp,
          decide_eq_true_eq] at hblocked ⊢
        exact .inr hblocked
    have hblocked' : isBlocked triples between u = false := by
      rcases hkept with hop | hkept
      · simp [isBlocked, hop]
      · exact hkept.2
    refine ih (hplaced.step hnodup hv hstep) hbetween hfresh hblocked' hrun ?_
    by_cases hassign : v.op = .assign
    · exact result?_of_assign hsymbols hplaced hassign hstep
        (hkept.imp_right fun hkept => hkept.1 hassign) hr
    · exact result?_of_ne_assign hassign hstep hvu hr

/-- A result stays recorded until a triple of its number is carried out. -/
theorem results_of_run {id : Nat} (hrun : run symbols triples s = some s₁)
    (hid : ∀ t ∈ triples, id ≠ t.id) : s₁.results id = s.results id := by
  induction triples generalizing s with
  | nil =>
    cases hrun
    rfl
  | cons t rest ih =>
    obtain ⟨hne, hid⟩ := List.forall_mem_cons.mp hid
    obtain ⟨s₂, hstep, hrun⟩ := run_cons.mp hrun
    rw [ih hrun hid, results_of_step hstep hne]

/-- What is known of places is known after any of the triples. -/
theorem Placed.run {between : List Triple} (h : Placed symbols triples s)
    (hnodup : (triples.map Triple.id).Nodup) (hbetween : ∀ v ∈ between, v ∈ triples)
    (hrun : run symbols between s = some s₁) : Placed symbols triples s₁ := by
  induction between generalizing s with
  | nil =>
    cases hrun
    exact h
  | cons v between ih =>
    obtain ⟨hv, hbetween⟩ := List.forall_mem_cons.mp hbetween
    obtain ⟨s₂, hstep, hrun⟩ := run_cons.mp hrun
    exact ih (h.step hnodup hv hstep) hbetween hrun

/-! ## One round -/

/-- A triple and a later one that computes the same, among the triples of a list. -/
structure Duplicate where
  before : List Triple
  first : Triple
  between : List Triple
  last : Triple
  rest : List Triple

namespace Duplicate

/-- The triples as they stand. -/
def original (d : Duplicate) : List Triple :=
  d.before ++ d.first :: d.between ++ d.last :: d.rest

/-- The triples without the later one. -/
def merged (d : Duplicate) : List Triple :=
  d.before ++ d.first.absorb d.last :: d.between
    ++ d.rest.map (·.rename d.last.id (.temp d.first.id))

/-- The two may be merged. -/
structure Mergeable (d : Duplicate) : Prop where
  first : d.first.op ≠ .assign
  last : d.last.op ≠ .assign
  same : d.first.sameExpression d.last = true
  unchanged : isBlocked d.original d.between d.last = false

end Duplicate

/-- A duplicate that is found is the same expression, and nothing after it blocks the merge. -/
theorem findEarlier?_eq_some {before rest : List Triple} {found : Split}
    (h : findEarlier? triples t before rest = some found) :
    before ++ rest = found.before ++ found.found :: found.after ∧ found.found.op ≠ .assign ∧
      found.found.sameExpression t = true ∧ isBlocked triples found.after t = false := by
  induction rest generalizing before with
  | nil => cases h
  | cons first after ih =>
    rw [findEarlier?] at h
    split at h
    next hfound =>
      cases h
      simpa using hfound
    next => simpa using ih h

/-- One round of merging takes one triple away, the last of two that can be merged. -/
theorem mergeFrom?_eq_some {earlier rest merged : List Triple} (hsplit : triples = earlier ++ rest)
    (h : mergeFrom? triples earlier rest = some merged) :
    ∃ d : Duplicate, d.Mergeable ∧ triples = d.original ∧ merged = d.merged := by
  induction rest generalizing earlier with
  | nil => cases h
  | cons t rest ih =>
    rw [mergeFrom?] at h
    split at h
    next => exact ih (by simp [hsplit]) h
    next hop =>
      split at h
      next found hfound =>
        obtain ⟨hearlier, hfirst, hsame, hblocked⟩ := findEarlier?_eq_some hfound
        let d : Duplicate := ⟨found.before, found.found, found.after, t, rest⟩
        have horiginal : triples = d.original := by
          rw [hsplit, ← List.nil_append earlier, hearlier, Duplicate.original]
        rw [horiginal] at hblocked
        exact ⟨d, ⟨hfirst, hop, hsame, hblocked⟩, horiginal, (Option.some.inj h).symm⟩
      next => exact ih (by simp [hsplit]) h

/-- A triple that takes over marks is carried out as before. -/
theorem similar_absorb (h : t.WellFormed) : Similar symbols t (t.absorb u) where
  id := rfl
  assign := Iff.rfl
  refs _ := fun h => h
  width := rfl
  resultWidth := rfl
  widthIn _ := rfl
  wellFormed := ⟨h.indexesVar, h.notFolded⟩
  pointer hpointer := ⟨hpointer, rfl⟩
  step _ := rfl

/-- The same expression at the same width has the same result. -/
theorem result?_of_sameExpression (h : t.sameExpression u = true) (hwidth : t.width = u.width) :
    t.result? symbols s = u.result? symbols s := by
  rcases t with ⟨_, lhs, op, rhs, width⟩
  rcases u with ⟨_, lhs', op', rhs', width'⟩
  simp only [sameExpression, Bool.and_eq_true, decide_eq_true_eq] at h
  obtain ⟨⟨rfl, rfl⟩, rfl⟩ := h
  cases hwidth
  rfl

theorem widthIn_of_sameExpression {widths : Nat → Width} (h : t.sameExpression u = true)
    (hop : t.op ≠ .assign) : t.widthIn symbols widths = u.widthIn symbols widths := by
  rcases t with ⟨_, lhs, op, rhs⟩
  rcases u with ⟨_, lhs', op', rhs'⟩
  simp only [sameExpression, Bool.and_eq_true, decide_eq_true_eq] at h
  obtain ⟨⟨rfl, rfl⟩, rfl⟩ := h
  simp_all [widthIn]

theorem isBlocked_of_sameExpression {between : List Triple} (h : t.sameExpression u = true) :
    isBlocked triples between t = isBlocked triples between u := by
  rcases t with ⟨_, lhs, op, rhs⟩
  rcases u with ⟨_, lhs', op', rhs'⟩
  simp only [sameExpression, Bool.and_eq_true, decide_eq_true_eq] at h
  obtain ⟨⟨rfl, rfl⟩, rfl⟩ := h
  rfl

namespace Duplicate

variable {d : Duplicate} {scope : List Nat} {widths : Nat → Width}

/-- What is in order from the first of the two on. -/
theorem orderly_first (h : Orderly symbols true scope widths d.original) :
    Orderly symbols true (scopeAfter true scope d.before) (widthsAfter widths d.before)
      (d.first :: d.between ++ d.last :: d.rest) := by
  rw [original, List.append_assoc] at h
  exact h.right

/-- Of the same width they have results of the same width. -/
theorem Mergeable.resultWidth (hd : d.Mergeable) (h : d.first.width = d.last.width) :
    d.first.resultWidth = d.last.resultWidth := by
  have hsame := hd.same
  simp only [sameExpression, Bool.and_eq_true, decide_eq_true_eq] at hsame
  simp only [Triple.resultWidth, hsame.1.1, h]

/-- The two triples have the same width, as their operands have. -/
theorem Mergeable.width (hd : d.Mergeable) (h : Orderly symbols true scope widths d.original) :
    d.first.width = d.last.width := by
  have hfirst := orderly_first h
  have hlast := hfirst.right
  rw [hfirst.typed.1, hlast.typed.1, ← widthIn_of_sameExpression hd.same hd.first]
  refine (widthIn_congr fun j hj => widthsAfter_of_fresh fun u hu hid => ?_).symm
  exact hfirst.fresh u (List.mem_append_left (d.last :: d.rest) hu)
    (hid ▸ hfirst.inScope.1 j hj)

/-- After a merge the triples are still in order: references to the last go to the first, which
comes before it. -/
theorem Mergeable.orderly (hd : d.Mergeable) (h : Orderly symbols true scope widths d.original) :
    Orderly symbols true scope widths d.merged := by
  have hwidth := hd.width h
  have hlast := h.right
  have hscope : d.first.id ∈ scopeAfter true scope (d.before ++ d.first :: d.between) := by
    rw [scopeAfter_append, scopeAfter, nextScope_of_ne hd.first]
    exact subset_scopeAfter List.mem_cons_self
  have hresult : widthsAfter widths (d.before ++ d.first :: d.between) d.first.id =
      d.last.resultWidth := by
    have hfresh : ∀ u ∈ d.between, d.first.id ≠ u.id := fun u hu =>
      (orderly_first h).ne_id u (List.mem_append_left _ hu)
    rw [widthsAfter, List.foldl_append, List.foldl_cons]
    refine (widthsAfter_of_fresh hfresh).trans ?_
    rw [noteWidth, if_pos rfl, hd.resultWidth hwidth]
  have hrest := hlast.rename hd.last rfl (fun j hj => Operand.temp.inj hj ▸ hscope) hresult
  have hids : List.Sublist ((d.rest.map (·.rename d.last.id (.temp d.first.id))).map Triple.id)
      ((d.last :: d.rest).map Triple.id) := by
    rw [List.map_map]
    exact List.sublist_cons_self _ _
  have hmerged := (h.append_similar hrest hids).1
  have hwell : d.first.WellFormed := h.wellFormed _ (by simp [original])
  rw [List.append_assoc] at hmerged
  rw [merged, List.append_assoc]
  exact hmerged.replace (similar_absorb hwell)

/-- Merging leaves the final memory alone. The last of the two would have the result of the first
again, as nothing in between changes it. -/
theorem Mergeable.runs {guard : Store → Triple → Prop} (hd : d.Mergeable)
    (hsymbols : symbols.Separate) (hsimilar : Tolerates symbols guard)
    (hrename : ∀ id j, Survives symbols guard id (.temp j) (Doubles id j))
    (h : Orderly symbols true scope widths d.original) (hplaced : Placed symbols d.original s)
    (hruns : Runs symbols guard d.original s s₁) :
    ∃ s₁', Runs symbols guard d.merged s s₁' ∧ s₁'.memory = s₁.memory := by
  have hwell : d.first.WellFormed := h.wellFormed _ (by simp [original])
  have hwidth := hd.width h
  have hnodup := h.nodup
  have hlast := h.right
  obtain ⟨s₂, hthrough, hlastRuns⟩ := hruns.split
  obtain ⟨s₃, hbefore, hbetween⟩ := hthrough.split
  obtain _ | ⟨-, hstepLast, hrest⟩ := hlastRuns
  obtain _ | ⟨hguardFirst, hstepFirst, hbetween'⟩ := hbetween
  have hbetween := Runs.cons hguardFirst hstepFirst hbetween'
  obtain ⟨_, r, hr, rfl⟩ := (step_cases hstepFirst).resolve_left fun hassign => hd.first hassign.1
  obtain ⟨_, r', hr', rfl⟩ := (step_cases hstepLast).resolve_left fun hassign => hd.last hassign.1
  have hfirst := orderly_first h
  -- The first triple would give the same result where the last one stands.
  have hsame : r' = r := by
    have hagain : d.first.result? symbols s₂ = some r := by
      refine result?_of_run hsymbols hnodup (hplaced.run hnodup ?_ hbefore.run_eq) ?_ ?_ ?_
        hbetween.run_eq hr
      · intro v hv
        simp [original, hv]
      · intro v hv
        simp only [original, List.mem_append]
        exact .inl (.inr hv)
      · intro v hv hmem
        refine hfirst.fresh v ?_ (hfirst.inScope.1 _ hmem)
        exact List.mem_append_left (d.last :: d.rest) hv
      · have hunchanged := hd.unchanged
        rw [← isBlocked_of_sameExpression hd.same] at hunchanged
        simpa [isBlocked, hd.first] using hunchanged
    rw [result?_of_sameExpression hd.same hwidth] at hagain
    exact Option.some.inj (hr'.symm.trans hagain)
  subst hsame
  have hkept : s₂.results d.first.id = some r' := by
    rw [results_of_run hbetween'.run_eq fun u hu => hfirst.ne_id u (List.mem_append_left _ hu)]
    exact if_pos rfl
  have hfresh : ∀ u ∈ d.rest, d.last.id ≠ u.id ∧ Operand.temp d.first.id ≠ .temp u.id :=
    fun u hu => ⟨hlast.ne_id u hu, fun hid =>
      hfirst.ne_id u (by simp [hu]) (Operand.temp.inj hid)⟩
  have hdoubles : Doubles d.last.id d.first.id (s₂.record d.last.id r') s₂ :=
    hkept.trans (if_pos rfl).symm
  have hexcept : SameExcept d.last.id (s₂.record d.last.id r') s₂ :=
    ⟨rfl, fun j hj => (if_neg hj).symm⟩
  obtain ⟨s₁', hrest', hmemory⟩ := hrest.rename rfl hfresh (reaches_temp _) lasting_doubles
    (hrename _ _) hexcept (.inl hdoubles)
  refine ⟨s₁', ?_, hmemory⟩
  rw [merged, List.append_assoc]
  exact .replace hsimilar (similar_absorb hwell) (hbefore.append (hbetween.append hrest'))

end Duplicate

/-! ## All rounds -/

/-- What one round keeps, all rounds keep. -/
theorem mergeAll_induction {P : List Triple → Prop}
    (hround : ∀ d : Duplicate, d.Mergeable → P d.original → P d.merged) (h : P triples) :
    P (mergeAll triples) := by
  fun_induction mergeAll triples with
  | case1 triples hmerge => exact h
  | case2 triples merged hmerge ih =>
    obtain ⟨d, hd, rfl, rfl⟩ := mergeFrom?_eq_some (List.nil_append triples).symm hmerge
    exact ih (hround d hd h)

/-- Merging duplicates keeps triples in order. -/
theorem orderly_mergeAll {scope : List Nat} {widths : Nat → Width}
    (h : Orderly symbols true scope widths triples) :
    Orderly symbols true scope widths (mergeAll triples) :=
  mergeAll_induction (fun _ hd h => hd.orderly h) h

/-- Merging duplicates leaves the final memory alone. -/
theorem Runs.mergeAll {guard : Store → Triple → Prop} {scope : List Nat} {widths : Nat → Width}
    {memory : Memory} (hsymbols : symbols.Separate) (hsimilar : Tolerates symbols guard)
    (hrename : ∀ id j, Survives symbols guard id (.temp j) (Doubles id j))
    (h : Orderly symbols true scope widths triples)
    (hruns : Runs symbols guard triples { memory } s₁) :
    ∃ s₁', Runs symbols guard (Triple.mergeAll triples) { memory } s₁' ∧
      s₁'.memory = s₁.memory := by
  fun_induction Triple.mergeAll triples generalizing s₁ with
  | case1 triples hmerge => exact ⟨s₁, hruns, rfl⟩
  | case2 triples merged hmerge ih =>
    obtain ⟨d, hd, rfl, rfl⟩ := mergeFrom?_eq_some (List.nil_append triples).symm hmerge
    obtain ⟨s₂, hruns', hmemory⟩ := hd.runs hsymbols hsimilar hrename h placed_start hruns
    obtain ⟨s₁', hfinal, hmemory'⟩ := ih (hd.orderly h) hruns'
    exact ⟨s₁', hfinal, hmemory'.trans hmemory⟩

end Accumulator.Triple
