import Accumulator.Proofs.Triple.Merge
import Accumulator.Proofs.Triple.Reduce

/-!
# Runs that code can follow

Code may be selected so that a byte behind a pointer or in an array is not read where the triples
read it, but later, when it is used. It does what the triples do if what they read is still there
(`Current`). In a draft that is so because a statement ends with its only assignment
(`Runs.current`), and merging duplicates keeps it so.

Also, a pointer must point at a variable (`InBounds`): what lies between the variables and the stack
is not for programs. Of what is read within these bounds the results tell where it was (`Known`).
-/

namespace Accumulator

namespace Triple

variable {symbols : SymbolTable} {triples : List Triple} {s s' s₁ : Store} {t u : Triple}
  {r : Result} {p : Place} {guard : Store → Triple → Prop}

/-! ## Pointers that point at variables -/

/-- A pointer that the triple follows points at a variable. -/
def InBounds (symbols : SymbolTable) (s : Store) (t : Triple) : Prop :=
  t.followsPointer = true → ∀ a ∈ t.lhs.value? symbols s, symbols.IsData a

instance (symbols : SymbolTable) (s : Store) (t : Triple) : Decidable (t.InBounds symbols s) :=
  inferInstanceAs (Decidable (_ → _))

/-- Carry out triples in order, as long as pointers point at variables. -/
def runWithin (symbols : SymbolTable) (triples : List Triple) (s : Store) : Option Store :=
  triples.foldlM (fun s t => if t.InBounds symbols s then t.step symbols s else none) s

/-- A run within bounds is a run in which every step is. -/
theorem runs_of_runWithin (h : runWithin symbols triples s = some s₁) :
    Runs symbols (fun s t => t.InBounds symbols s) triples s s₁ := by
  induction triples generalizing s with
  | nil =>
    cases h
    exact .nil _
  | cons t rest ih =>
    obtain ⟨s₂, hstep, hrest⟩ := Option.bind_eq_some_iff.mp h
    dsimp only at hstep
    split at hstep
    next hbounds => exact .cons hbounds hstep (ih hrest)
    next => cases hstep

/-- Where no pointer is followed, every run is within bounds. -/
theorem runWithin_eq_run (h : ∀ t ∈ triples, t.followsPointer = false) (s : Store) :
    runWithin symbols triples s = run symbols triples s := by
  induction triples generalizing s with
  | nil => rfl
  | cons t rest ih =>
    obtain ⟨ht, hrest⟩ := List.forall_mem_cons.mp h
    have hbounds : t.InBounds symbols s := fun hpointer => by
      rw [ht] at hpointer
      cases hpointer
    simp only [runWithin, run, List.foldlM_cons, if_pos hbounds]
    exact congrArg _ (funext fun s' => ih hrest s')

/-- A pointer that is followed has a value, or else the triple could not be carried out. -/
theorem exists_pointer (hpointer : t.followsPointer = true) (hstep : t.step symbols s = some s₁) :
    ∃ a, t.lhs.value? symbols s = some a := by
  simp only [followsPointer, Bool.or_eq_true, Bool.and_eq_true, decide_eq_true_eq] at hpointer
  rcases step_cases hstep with ⟨hop, memory, hmemory, -⟩ | ⟨hop, r, hr, -⟩
  · have hthrough : t.throughPointer = true := by
      obtain hderef | ⟨-, hthrough⟩ := hpointer
      · rw [hop] at hderef
        cases hderef
      · exact hthrough
    simp only [assigned?, target?, hthrough, if_true, Option.bind_eq_bind, Option.bind_eq_some_iff,
      Option.map_eq_some_iff] at hmemory
    obtain ⟨_, -, _, -, _, ⟨a, ha, -⟩, -⟩ := hmemory
    exact ⟨a, ha⟩
  · have hderef : t.op = .deref := hpointer.resolve_right fun h => hop h.1
    simp only [result?, hderef] at hr
    obtain ⟨p, hp, -⟩ := Option.map_eq_some_iff.mp hr
    rcases source?_eq_some hp with ⟨_, _, _, hindex, -⟩ | ⟨a, -, ha, -⟩
    · rw [hderef] at hindex
      cases hindex
    · exact ⟨a, ha⟩

theorem tolerates_inBounds : Tolerates symbols fun s t => t.InBounds symbols s := by
  intro s t t' hsimilar hbounds hpointer
  obtain ⟨hpointer, hlhs⟩ := hsimilar.pointer hpointer
  rw [hlhs]
  exact hbounds hpointer

/-- A pointer that is renamed to what stands for it has the same value, so it points at the same
variable. -/
theorem survives_inBounds {id : Nat} {o : Operand} {R : Store → Store → Prop}
    (hlasting : Lasting symbols id o R) :
    Survives symbols (fun s t => t.InBounds symbols s) id o R := by
  intro t s s' s₁ hsame hstands hstep hbounds hpointer a ha
  obtain ⟨b, hb⟩ := exists_pointer (show t.followsPointer = true from hpointer) hstep
  have hvalue := value?_rename (o := o) hsame (fun hid =>
    hlasting.stands (hstands (by simp [refersTo, hid]))) hb
  cases hvalue.symm.trans ha
  exact hbounds hpointer a hb

/-! ## Operands that are still there -/

/-- The results that the triple refers to are still in memory, if they were read from there. -/
def Current (s : Store) (t : Triple) : Prop :=
  ∀ j ∈ t.refs, ∀ r p, s.results j = some r → r.place = some p → p.read s.memory = r.value

theorem tolerates_current : Tolerates symbols Current :=
  fun _ _ _ hsimilar hcurrent j hj => hcurrent j (hsimilar.refs j hj)

/-- A result that is another one again is in memory if that is. -/
theorem survives_current {id j : Nat} : Survives symbols Current id (.temp j) (Doubles id j) := by
  intro t s s' s₁ hsame hdoubles hstep hcurrent i hi r p hr hp
  rw [hsame.memory]
  obtain ⟨hi, hne⟩ | ⟨hid, hj⟩ := mem_refs_rename hi
  · exact hcurrent i hi r p (hsame.results i hne ▸ hr) hp
  · cases hj
    exact hcurrent id hid r p ((hdoubles (mem_refs.mp hid)).symm.trans hr) hp

/-- A result that was read from memory is in memory right after it was read. -/
theorem read_of_result? (hr : t.result? symbols s = some r) (hp : r.place = some p) :
    p.read s.memory = r.value := by
  cases hop : t.op with
  | assign => simp [result?, hop] at hr
  | index | deref =>
    simp only [result?, hop] at hr
    obtain ⟨q, -, rfl⟩ := Option.map_eq_some_iff.mp hr
    cases hp
    rfl
  | _ =>
    simp only [result?, hop] at hr
    obtain ⟨q, -, rfl⟩ := Option.map_eq_some_iff.mp hr
    cases hp

/-- Within a statement nothing is assigned before its end, so what it has read is still there. By
induction on the triples, with the results in scope still current. -/
theorem Runs.current {scope : List Nat} {widths : Nat → Width}
    (h : Orderly symbols false scope widths triples)
    (hscope : ∀ j ∈ scope, ∀ r p, s.results j = some r → r.place = some p →
      p.read s.memory = r.value)
    (hruns : Runs symbols guard triples s s₁) :
    Runs symbols (fun s t => guard s t ∧ Current s t) triples s s₁ := by
  induction hruns generalizing scope widths with
  | nil s => exact .nil s
  | @cons t rest s s₂ s₁ hguard hstep hruns ih =>
    refine .cons ⟨hguard, fun j hj => hscope j (h.inScope.1 j hj)⟩ hstep (ih h.tail ?_)
    rcases step_cases hstep with ⟨hop, _⟩ | ⟨hop, r, hr, rfl⟩
    · rw [nextScope_of_assign hop]
      exact List.forall_mem_nil _
    · rw [nextScope_of_ne hop]
      intro j hj r' p hr' hp
      simp only [Store.record] at hr'
      split at hr'
      next =>
        cases hr'
        show p.read s.memory = r.value
        exact read_of_result? hr hp
      next hne => exact hscope j ((List.mem_cons.mp hj).resolve_left hne) r' p hr' hp

/-- A triple that code can follow. -/
structure Allowed (symbols : SymbolTable) (s : Store) (t : Triple) : Prop where
  inBounds : t.InBounds symbols s
  current : Current s t

/-- Code can follow the triples of a draft also when they are optimized. Both guards survive
strength reduction, which renames results to their operands, and merging, which renames them to an
earlier result. -/
theorem Runs.optimize {memory : Memory} (hsymbols : symbols.Separate)
    (h : Orderly symbols false [] (widthsOf []) triples)
    (hruns : Runs symbols (fun s t => t.InBounds symbols s) triples { memory } s) :
    ∃ s', Runs symbols (Allowed symbols) (Triple.optimize symbols triples) { memory } s' ∧
      s'.memory = s.memory := by
  obtain ⟨s₁, hreduced, hmemory₁⟩ := hruns.reduceAll tolerates_inBounds
    (fun _ _ => survives_inBounds lasting_standsFor) h (List.forall_mem_nil _)
  have hordered := (orderly_reduceAll h).1
  have hcurrent := hreduced.current hordered (List.forall_mem_nil _)
  obtain ⟨s₂, hmerged, hmemory₂⟩ := hcurrent.mergeAll hsymbols
    (fun s t t' hsimilar hboth =>
      ⟨tolerates_inBounds s t t' hsimilar hboth.1, tolerates_current s t t' hsimilar hboth.2⟩)
    (fun id j t s s' s₁ hsame hdoubles hstep hboth =>
      ⟨survives_inBounds lasting_doubles t s s' s₁ hsame hdoubles hstep hboth.1,
        survives_current t s s' s₁ hsame hdoubles hstep hboth.2⟩) hordered.widen
  refine ⟨s₂, ?_, hmemory₂.trans hmemory₁⟩
  rw [Triple.optimize, reduce_eq h]
  exact hmerged.mono fun _ _ hboth => ⟨hboth.1, hboth.2⟩

/-! ## What results tell -/

/-- What is known of the results of triples. -/
structure Known (symbols : SymbolTable) (triples : List Triple) (results : Nat → Option Result) :
    Prop where
  owner : ∀ j r, results j = some r → ∃ t ∈ triples, t.id = j
  fits : ∀ t ∈ triples, ∀ r, results t.id = some r → t.resultWidth.narrow r.value = r.value
  /-- What was read from memory was read from a variable. -/
  source : ∀ t ∈ triples, t.op = .index ∨ t.op = .deref → ∀ r, results t.id = some r →
    ∃ p, r.place = some p ∧ p.width = t.width ∧ ∀ a ∈ p.cells, symbols.IsData a
  element : ∀ t ∈ triples, t.op = .index → ∀ name, t.lhs = .var name → ∀ r p,
    results t.id = some r → r.place = some p → ∀ a ∈ p.cells, a ∈ symbols.storage name

theorem known_start : Known symbols triples fun _ => none where
  owner _ _ h := by cases h
  fits _ _ _ h := by cases h
  source _ _ _ _ h := by cases h
  element _ _ _ _ _ _ _ h := by cases h

/-- What is read within bounds is read from a variable. -/
theorem exists_place {widths : Nat → Width} (hop : t.op = .index ∨ t.op = .deref)
    (hwidth : t.width = t.widthIn symbols widths) (hbounds : t.InBounds symbols s)
    (hr : t.result? symbols s = some r) :
    ∃ p, r.place = some p ∧ p.width = t.width ∧ ∀ a ∈ p.cells, symbols.IsData a := by
  obtain ⟨p, hp, rfl⟩ : ∃ p, t.source? symbols s = some p ∧
      { value := p.read s.memory, place := some p } = r := by
    rcases hop with hop | hop <;> simpa only [result?, hop, Option.map_eq_some_iff] using hr
  refine ⟨p, rfl, ?_⟩
  rcases source?_eq_some hp with ⟨name, index, v, hop, hlhs, -, -, helement⟩ | ⟨a, hop, ha, rfl⟩
  · rw [hwidth, SymbolTable.width_of_element? helement]
    refine ⟨by simp only [widthIn, hop, hlhs], fun a ha => ⟨name, ?_⟩⟩
    exact SymbolTable.element?_subset_storage helement a ha
  · refine ⟨by rw [hwidth]; simp only [widthIn, hop], fun b hb => ?_⟩
    cases List.mem_singleton.mp hb
    exact hbounds (by simp [followsPointer, hop]) a ha

/-- A result is recorded. What is known of results holds of the new one, which its triple has
computed, and of those that were there before. -/
theorem Known.record {widths : Nat → Width} (h : Known symbols triples s.results)
    (hnodup : (triples.map Triple.id).Nodup) (ht : t ∈ triples)
    (hwidth : t.width = t.widthIn symbols widths) (hbounds : t.InBounds symbols s)
    (hr : t.result? symbols s = some r) : Known symbols triples (s.record t.id r).results := by
  -- A recorded result is one that was there before, or the new one.
  have hcases : ∀ {j r'}, (s.record t.id r).results j = some r' →
      j = t.id ∧ r' = r ∨ s.results j = some r' := by
    intro j r' hr'
    simp only [Store.record] at hr'
    split at hr'
    next hj => exact .inl ⟨hj, (Option.some.inj hr').symm⟩
    next => exact .inr hr'
  constructor
  · intro j r' hr'
    obtain ⟨rfl, -⟩ | hr' := hcases hr'
    · exact ⟨t, ht, rfl⟩
    · exact h.owner j r' hr'
  · intro u hu r' hr'
    obtain ⟨hid, rfl⟩ | hr' := hcases hr'
    · obtain rfl : u = t := List.inj_on_of_nodup_map hnodup hu ht hid
      exact narrow_result? hwidth hr
    · exact h.fits u hu r' hr'
  · intro u hu hop r' hr'
    obtain ⟨hid, rfl⟩ | hr' := hcases hr'
    · obtain rfl : u = t := List.inj_on_of_nodup_map hnodup hu ht hid
      exact exists_place hop hwidth hbounds hr
    · exact h.source u hu hop r' hr'
  · intro u hu hop name hlhs r' p hr' hp
    obtain ⟨hid, rfl⟩ | hr' := hcases hr'
    · obtain rfl : u = t := List.inj_on_of_nodup_map hnodup hu ht hid
      simp only [result?, hop] at hr
      obtain ⟨q, hq, rfl⟩ := Option.map_eq_some_iff.mp hr
      cases hp
      rcases source?_eq_some hq with ⟨base, _, _, _, hbase, _, _, helement⟩ | ⟨_, hderef, _⟩
      · obtain rfl : base = name := Operand.var.inj (hbase.symm.trans hlhs)
        exact SymbolTable.element?_subset_storage helement
      · rw [hop] at hderef
        cases hderef
    · exact h.element u hu hop name hlhs r' p hr' hp

/-- Triples in order have the widths that their operands give. -/
theorem Typed.exists_widths {widths : Nat → Width} (h : Typed symbols widths triples)
    (ht : t ∈ triples) : ∃ widths', t.width = t.widthIn symbols widths' := by
  induction triples generalizing widths with
  | nil => cases ht
  | cons u rest ih =>
    obtain rfl | ht := List.mem_cons.mp ht
    · exact ⟨widths, h.1⟩
    · exact ih h.2 ht

/-- What is known before some of the triples is known after them. -/
theorem Known.runs {widths : Nat → Width} {rest : List Triple} (h : Known symbols triples s.results)
    (hnodup : (triples.map Triple.id).Nodup) (htyped : Typed symbols widths triples)
    (hrest : ∀ t ∈ rest, t ∈ triples) (hruns : Runs symbols (Allowed symbols) rest s s₁) :
    Known symbols triples s₁.results := by
  induction hruns with
  | nil s => exact h
  | @cons t rest s s₂ s₁ hallowed hstep _ ih =>
    obtain ⟨ht, hrest⟩ := List.forall_mem_cons.mp hrest
    refine ih ?_ hrest
    rcases step_cases hstep with ⟨_, memory, _, rfl⟩ | ⟨_, r, hr, rfl⟩
    · exact h
    · obtain ⟨widths', hwidth⟩ := htyped.exists_widths ht
      exact h.record hnodup ht hwidth hallowed.inBounds hr

end Triple

end Accumulator
