import Accumulator.Proofs.Triple.Meaning

/-!
# Renaming references

Optimizing removes triples and renames the references to them. That is harmless as long as what
they are renamed to stands for the removed result: it has the same value, and the same place if
there was one (`Runs.rename`). A variable stands for a result only until the next assignment; the
result of another triple stands for it for good.

Runs are under guard: every triple is carried out in a store that the guard allows it in. What the
guard asks for is up to those who use such a run; here it only has to survive the renaming.
-/

namespace Accumulator.Triple

/-! ## Replacing operands

A triple does in one store what it does in another if its operands, or what they are replaced by,
mean the same there. -/

/-- The triple with other operands. -/
def mapOperands (t : Triple) (f : Operand → Operand) : Triple :=
  { t with lhs := f t.lhs, rhs := t.rhs.map f }

theorem mapOperands_id (t : Triple) : (t.mapOperands fun o => o) = t := by
  simp [mapOperands]

/-- Only references are replaced, and not by literals. -/
structure Replaces (f : Operand → Operand) : Prop where
  fixed : ∀ o, o.temp? = none → f o = o
  not_const : ∀ id, (f (.temp id)).isConst = false

theorem replaces_id : Replaces fun o => o where
  fixed _ _ := rfl
  not_const _ := rfl

variable {symbols : SymbolTable} {f : Operand → Operand} {s s' : Store} {t : Triple}

theorem operands_mapOperands (t : Triple) (f : Operand → Operand) :
    (t.mapOperands f).operands = t.operands.map f := by
  rcases t with ⟨id, lhs, op, rhs⟩
  cases op <;> cases rhs <;> rfl

/-- A count is a literal, so it stays when references are replaced, and no reference becomes one. -/
theorem repetitions_mapOperands (hf : Replaces f) (t : Triple) :
    (t.mapOperands f).repetitions = t.repetitions := by
  rcases t with ⟨id, lhs, op, rhs⟩
  cases rhs with
  | none => rfl
  | some o =>
    cases o with
    | const c =>
      have hc : f (.const c) = .const c := hf.fixed _ rfl
      simp only [mapOperands, Option.map_some, hc, repetitions]
    | var name =>
      have hname : f (.var name) = .var name := hf.fixed _ rfl
      simp only [mapOperands, Option.map_some, hname, repetitions]
    | temp j =>
      -- What stands for a result is no literal, so there is no count in either place.
      have hconst := hf.not_const j
      cases hj : f (.temp j) with
      | const c => simp [hj, Operand.isConst] at hconst
      | _ => cases op <;> simp [mapOperands, repetitions, hj]

/-- What is computed from values does not depend on where they come from. -/
theorem combine?_mapOperands (hf : Replaces f) (t : Triple) (values : List Word) :
    (t.mapOperands f).combine? values = t.combine? values := by
  have hrepeat := repetitions_mapOperands hf t
  unfold combine?
  split
  · simp only [hrepeat]
    rfl
  · rfl
  · rfl

/-- Operands that are replaced by others of the same value have the same values all together. -/
theorem mapM_value? {operands : List Operand} {values : List Word}
    (h : ∀ o ∈ operands, ∀ v, o.value? symbols s = some v → (f o).value? symbols s' = some v)
    (hvalues : operands.mapM (·.value? symbols s) = some values) :
    (operands.map f).mapM (·.value? symbols s') = some values := by
  induction operands generalizing values with
  | nil => exact hvalues
  | cons o rest ih =>
    obtain ⟨ho, hrest⟩ := List.forall_mem_cons.mp h
    simp only [List.mapM_cons, Option.bind_eq_bind, Option.bind_eq_some_iff, Option.pure_def,
      Option.some.injEq] at hvalues
    obtain ⟨v, hv, vs, hvs, rfl⟩ := hvalues
    simp [List.mapM_cons, ho v hv, ih hrest hvs]

/-- An operation has the same value if its operands have. -/
theorem operation?_mapOperands (hf : Replaces f) {value : Word}
    (h : ∀ o ∈ t.operands, ∀ v, o.value? symbols s = some v → (f o).value? symbols s' = some v)
    (hvalue : t.operation? symbols s = some value) :
    (t.mapOperands f).operation? symbols s' = some value := by
  simp only [operation?, Option.bind_eq_bind, Option.bind_eq_some_iff] at hvalue ⊢
  obtain ⟨values, hvalues, outcome, houtcome, hresult⟩ := hvalue
  refine ⟨values, ?_, outcome, ?_, hresult⟩
  · rw [operands_mapOperands]
    exact mapM_value? h hvalues
  · exact (combine?_mapOperands hf t values).trans houtcome

/-- What names a place: an element of an array, or a pointer. -/
theorem source?_eq_some {p : Place} (h : t.source? symbols s = some p) :
    (∃ name index v, t.op = .index ∧ t.lhs = .var name ∧ t.rhs = some index ∧
      index.value? symbols s = some v ∧ symbols.element? name v = some p) ∨
    ∃ a, t.op = .deref ∧ t.lhs.value? symbols s = some a ∧
      p = { address := a, width := .byte } := by
  unfold source? at h
  split at h
  next name index hop hlhs hrhs =>
    obtain ⟨v, hv, hp⟩ := Option.bind_eq_some_iff.mp h
    exact .inl ⟨name, index, v, hop, hlhs, hrhs, hv, hp⟩
  next hop =>
    obtain ⟨a, ha, rfl⟩ := Option.map_eq_some_iff.mp h
    exact .inr ⟨a, hop, ha, rfl⟩
  next => cases h

/-- An element is the same if its position has the same value, and so is what a pointer points
at. -/
theorem source?_mapOperands (hf : Replaces f) {p : Place}
    (h : ∀ o ∈ t.operands, ∀ v, o.value? symbols s = some v → (f o).value? symbols s' = some v)
    (hsource : t.source? symbols s = some p) :
    (t.mapOperands f).source? symbols s' = some p := by
  rcases source?_eq_some hsource with
    ⟨name, index, v, hop, hlhs, hrhs, hv, hp⟩ | ⟨a, hop, ha, rfl⟩
  · have hindex := h index (by simp [operands, hop, hrhs]) v hv
    simp [source?, mapOperands, hop, hlhs, hrhs, hf.fixed (.var name) rfl, hindex, hp]
  · have hpointer := h t.lhs (by simp [operands, hop]) a ha
    simp [source?, mapOperands, hop, hpointer]

/-- Same results for the same values. An address needs the place of its operand only. -/
theorem result?_mapOperands (hf : Replaces f) {r : Result}
    (hvalue : t.op ≠ .address → ∀ o ∈ t.operands, ∀ v, o.value? symbols s = some v →
      (f o).value? symbols s' = some v)
    (hplace : ∀ p, t.lhs.place? symbols s = some p → (f t.lhs).place? symbols s' = some p)
    (hread : ∀ p, t.source? symbols s = some p → p.read s'.memory = p.read s.memory)
    (h : t.result? symbols s = some r) : (t.mapOperands f).result? symbols s' = some r := by
  have hop' : (t.mapOperands f).op = t.op := rfl
  cases hop : t.op with
  | assign => simp [result?, hop] at h
  | index | deref =>
    simp only [result?, hop', hop] at h ⊢
    obtain ⟨p, hp, rfl⟩ := Option.map_eq_some_iff.mp h
    have hsource := source?_mapOperands hf (hvalue (by simp [hop])) hp
    rw [hsource, Option.map_some, hread p hp]
  | address =>
    simp only [result?, hop', hop] at h ⊢
    obtain ⟨p, hp, rfl⟩ := Option.map_eq_some_iff.mp h
    exact Option.map_eq_some_iff.mpr ⟨p, hplace p hp, rfl⟩
  | _ =>
    simp only [result?, hop', hop] at h ⊢
    obtain ⟨v, hv, rfl⟩ := Option.map_eq_some_iff.mp h
    have hoperation := operation?_mapOperands hf (hvalue (by simp [hop])) hv
    exact Option.map_eq_some_iff.mpr ⟨v, hoperation, rfl⟩

/-- Same targets and the same memory after an assignment. Through a pointer the value of the left
operand counts, and its place otherwise. -/
theorem assigned?_mapOperands {memory : Memory} (hmemory : s'.memory = s.memory)
    (hvalue : ∀ o ∈ t.lhs :: t.rhs.toList, ∀ v, o.value? symbols s = some v →
      (f o).value? symbols s' = some v)
    (hplace : ∀ p, t.lhs.place? symbols s = some p → (f t.lhs).place? symbols s' = some p)
    (h : t.assigned? symbols s = some memory) :
    (t.mapOperands f).assigned? symbols s' = some memory := by
  simp only [assigned?, Option.bind_eq_bind, Option.bind_eq_some_iff, Option.pure_def,
    Option.some.injEq] at h ⊢
  obtain ⟨rhs, hrhs, v, hv, p, hp, rfl⟩ := h
  refine ⟨f rhs, by simp [mapOperands, hrhs], v, hvalue rhs (by simp [hrhs]) v hv, p, ?_, ?_⟩
  · have hthrough' : (t.mapOperands f).throughPointer = t.throughPointer := rfl
    unfold target? at hp ⊢
    split at hp
    next hthrough =>
      obtain ⟨a, ha, rfl⟩ := Option.map_eq_some_iff.mp hp
      rw [if_pos (hthrough'.trans hthrough)]
      exact Option.map_eq_some_iff.mpr ⟨a, hvalue _ List.mem_cons_self a ha, rfl⟩
    next hthrough =>
      rw [if_neg (hthrough' ▸ hthrough)]
      exact hplace p hp
  · rw [hmemory]
    rfl

/-! ## Steps -/

variable {s₁ : Store}

/-- An assignment changes memory and any other triple leaves a result. -/
theorem step_cases (h : t.step symbols s = some s₁) :
    (t.op = .assign ∧ ∃ memory, t.assigned? symbols s = some memory ∧ s₁ = { s with memory }) ∨
      t.op ≠ .assign ∧ ∃ r, t.result? symbols s = some r ∧ s₁ = s.record t.id r := by
  unfold step at h
  split at h
  next hop =>
    obtain ⟨memory, hmemory, rfl⟩ := Option.map_eq_some_iff.mp h
    exact .inl ⟨hop, memory, hmemory, rfl⟩
  next hop =>
    obtain ⟨r, hr, rfl⟩ := Option.map_eq_some_iff.mp h
    exact .inr ⟨hop, r, hr, rfl⟩

theorem step_of_assigned? {memory : Memory} (hop : t.op = .assign)
    (h : t.assigned? symbols s = some memory) : t.step symbols s = some { s with memory } := by
  rw [step, if_pos hop, h, Option.map_some]

theorem step_of_result? {r : Result} (hop : t.op ≠ .assign) (h : t.result? symbols s = some r) :
    t.step symbols s = some (s.record t.id r) := by
  rw [step, if_neg hop, h, Option.map_some]

/-- A step leaves the results of other triples as they are. -/
theorem results_of_step {id : Nat} (h : t.step symbols s = some s₁) (hid : id ≠ t.id) :
    s₁.results id = s.results id := by
  rcases step_cases h with ⟨_, memory, _, rfl⟩ | ⟨_, r, _, rfl⟩
  · rfl
  · exact if_neg hid

/-- A step that is no assignment leaves memory as it is. -/
theorem memory_of_step (h : t.step symbols s = some s₁) (hop : t.op ≠ .assign) :
    s₁.memory = s.memory := by
  rcases step_cases h with ⟨hassign, _⟩ | ⟨_, r, _, rfl⟩
  · exact absurd hassign hop
  · rfl

theorem run_cons {rest : List Triple} {s₂ : Store} :
    run symbols (t :: rest) s = some s₂ ↔
      ∃ s₁, t.step symbols s = some s₁ ∧ run symbols rest s₁ = some s₂ := by
  simp [run, Option.bind_eq_some_iff]

/-- Triples are carried out in order, each of them where the guard allows it. -/
inductive Runs (symbols : SymbolTable) (guard : Store → Triple → Prop) :
    List Triple → Store → Store → Prop where
  | nil (s : Store) : Runs symbols guard [] s s
  | cons {t : Triple} {rest : List Triple} {s s₁ s₂ : Store} (hguard : guard s t)
      (hstep : t.step symbols s = some s₁) (h : Runs symbols guard rest s₁ s₂) :
      Runs symbols guard (t :: rest) s s₂

namespace Runs

variable {guard : Store → Triple → Prop} {xs ys : List Triple} {s₂ : Store}

theorem run_eq (h : Runs symbols guard xs s s₁) : run symbols xs s = some s₁ := by
  induction h with
  | nil s => rfl
  | cons _ hstep _ ih => exact run_cons.mpr ⟨_, hstep, ih⟩

/-- A run without a guard. -/
theorem of_run (hguard : ∀ s t, guard s t) (h : run symbols xs s = some s₁) :
    Runs symbols guard xs s s₁ := by
  induction xs generalizing s with
  | nil =>
    cases h
    exact .nil _
  | cons t xs ih =>
    obtain ⟨s₂, hstep, h⟩ := run_cons.mp h
    exact .cons (hguard s t) hstep (ih h)

theorem mono {guard' : Store → Triple → Prop} (h : Runs symbols guard xs s s₁)
    (hguard : ∀ s t, guard s t → guard' s t) : Runs symbols guard' xs s s₁ := by
  induction h with
  | nil s => exact .nil s
  | cons ht hstep _ ih => exact .cons (hguard _ _ ht) hstep ih

theorem append (hxs : Runs symbols guard xs s s₁) (hys : Runs symbols guard ys s₁ s₂) :
    Runs symbols guard (xs ++ ys) s s₂ := by
  induction hxs with
  | nil s => exact hys
  | cons hguard hstep _ ih => exact .cons hguard hstep (ih hys)

/-- A run of two lists is a run of the first and then of the second. -/
theorem split (h : Runs symbols guard (xs ++ ys) s s₂) :
    ∃ s₁, Runs symbols guard xs s s₁ ∧ Runs symbols guard ys s₁ s₂ := by
  induction xs generalizing s with
  | nil => exact ⟨s, .nil s, h⟩
  | cons t xs ih =>
    cases h with
    | cons hguard hstep h =>
      obtain ⟨s₁, hxs, hys⟩ := ih h
      exact ⟨s₁, .cons hguard hstep hxs, hys⟩

end Runs

/-! ## Renaming a reference -/

/-- The stores differ in the result of one triple at most. -/
structure SameExcept (id : Nat) (s s' : Store) : Prop where
  memory : s'.memory = s.memory
  results : ∀ j, j ≠ id → s'.results j = s.results j

/-- In the second store an operand means what the result of a triple means in the first. -/
structure StandsFor (symbols : SymbolTable) (id : Nat) (o : Operand) (s s' : Store) : Prop where
  value : ∀ r, s.results id = some r → o.value? symbols s' = some r.value
  place : ∀ r p, s.results id = some r → r.place = some p → o.place? symbols s' = some p

theorem refersTo_of_mem {id : Nat} (h : .temp id ∈ t.lhs :: t.rhs.toList) :
    t.refersTo id = true := by
  simp only [List.mem_cons, Option.mem_toList] at h
  rcases h with h | h
  · simp [refersTo, ← h]
  · simp [refersTo, h]

theorem operands_subset {o : Operand} (h : o ∈ t.operands) : o ∈ t.lhs :: t.rhs.toList := by
  unfold operands at h
  split at h <;> simp_all

/-- Renaming a result to a variable or to another result leaves literals and variables as they
are. -/
theorem replaces_rename {id : Nat} {o : Operand} (ho : o.isConst = false) :
    Replaces fun x => if x = .temp id then o else x where
  fixed x hx := if_neg fun h => by simp [h, Operand.temp?] at hx
  not_const j := by
    split
    · exact ho
    · rfl

/-- An operand means the same when it is renamed to what stands for it. -/
theorem value?_rename {id : Nat} {o x : Operand} {v : Word} (hsame : SameExcept id s s')
    (hstands : x = .temp id → StandsFor symbols id o s s') (hv : x.value? symbols s = some v) :
    (if x = .temp id then o else x).value? symbols s' = some v := by
  split
  next hid =>
    subst hid
    obtain ⟨r, hr, rfl⟩ := Option.map_eq_some_iff.mp hv
    exact (hstands rfl).value r hr
  next hid =>
    cases x with
    | const value => exact hv
    | var name => rwa [Operand.value?, hsame.memory]
    | temp j => rwa [Operand.value?, hsame.results j fun h => hid (h ▸ rfl)]

/-- A triple does the same when references are renamed to what stands for them: an assignment makes
the same memory, and any other triple has the same result. -/
theorem step_rename {id : Nat} {o : Operand} (ho : o.isConst = false) (hsame : SameExcept id s s')
    (hstands : t.refersTo id = true → StandsFor symbols id o s s')
    (h : t.step symbols s = some s₁) :
    ∃ s₁', (t.rename id o).step symbols s' = some s₁' ∧ SameExcept id s₁ s₁' ∧
      (t.op ≠ .assign → s₁'.memory = s'.memory) ∧
      ∀ j, j ≠ t.id → s₁'.results j = s'.results j := by
  have hrename : t.rename id o = t.mapOperands fun x => if x = .temp id then o else x := rfl
  have hvalue : ∀ x ∈ t.lhs :: t.rhs.toList, ∀ v, x.value? symbols s = some v →
      (if x = .temp id then o else x).value? symbols s' = some v := by
    intro x hx v hv
    refine value?_rename hsame (fun hid => hstands ?_) hv
    exact refersTo_of_mem (hid ▸ hx)
  -- The target of an assignment is a place, and what stands for a result has the place of it.
  have hplace : ∀ p, t.lhs.place? symbols s = some p →
      (if t.lhs = .temp id then o else t.lhs).place? symbols s' = some p := by
    intro p hp
    split
    next hid =>
      rw [hid] at hp
      obtain ⟨r, hr, hp⟩ := Option.bind_eq_some_iff.mp hp
      exact (hstands (refersTo_of_mem (hid ▸ List.mem_cons_self))).place r p hr hp
    next hid =>
      cases hlhs : t.lhs with
      | const | var => rwa [hlhs] at hp
      | temp j =>
        rw [hlhs] at hp hid
        rwa [Operand.place?, hsame.results j fun h => hid (h ▸ rfl)]
  rcases step_cases h with ⟨hop, memory, hmemory, rfl⟩ | ⟨hop, r, hr, rfl⟩
  · have := assigned?_mapOperands hsame.memory hvalue hplace hmemory
    exact ⟨_, step_of_assigned? hop this, ⟨rfl, hsame.results⟩, fun hne => absurd hop hne,
      fun _ _ => rfl⟩
  · have := result?_mapOperands (replaces_rename ho)
      (fun _ x hx => hvalue x (operands_subset hx)) hplace
      (fun p _ => by rw [hsame.memory]) hr
    refine ⟨_, step_of_result? hop this, ⟨hsame.memory, fun j hj => ?_⟩, fun _ => rfl,
      fun j hj => ?_⟩
    · change (if j = t.id then some r else s'.results j) = if j = t.id then some r else s.results j
      rw [hsame.results j hj]
    · exact if_neg hj

/-- References to a result come before an assignment could change what the operand means. -/
def Reaches (id : Nat) (o : Operand) : List Triple → Prop
  | [] => True
  | t :: rest =>
    if t.op = .assign ∧ o.temp? = none then ∀ u ∈ rest, u.refersTo id = false
    else Reaches id o rest

/-- If nothing refers to the result, it need not reach anything. -/
theorem reaches_of_forall {id : Nat} {o : Operand} {triples : List Triple}
    (h : ∀ t ∈ triples, t.refersTo id = false) : Reaches id o triples := by
  induction triples with
  | nil => trivial
  | cons t rest ih =>
    have hrest := (List.forall_mem_cons.mp h).2
    rw [Reaches]
    split
    · exact hrest
    · exact ih hrest

/-- What stands for a result goes on doing so after a step that does not change it. -/
theorem StandsFor.of_step {id : Nat} {o : Operand} {s₁' : Store}
    (hstands : StandsFor symbols id o s s') (h : t.step symbols s = some s₁) (hid : id ≠ t.id)
    (ho : o ≠ .temp t.id) (hmemory : o.temp? = none → s₁'.memory = s'.memory)
    (hresults : ∀ j, j ≠ t.id → s₁'.results j = s'.results j) :
    StandsFor symbols id o s₁ s₁' := by
  have hvalue : o.value? symbols s₁' = o.value? symbols s' := by
    cases o with
    | const => rfl
    | var => rw [Operand.value?, hmemory rfl, Operand.value?]
    | temp j => rw [Operand.value?, hresults j fun h => ho (h ▸ rfl), Operand.value?]
  have hplace : o.place? symbols s₁' = o.place? symbols s' := by
    cases o with
    | const | var => rfl
    | temp j => rw [Operand.place?, hresults j fun h => ho (h ▸ rfl), Operand.place?]
  constructor
  · intro r hr
    rw [results_of_step h hid] at hr
    rw [hvalue, hstands.value r hr]
  · intro r p hr hp
    rw [results_of_step h hid] at hr
    rw [hplace, hstands.place r p hr hp]

/-- In the second store a result is what another one is in the first. -/
def Doubles (id j : Nat) (s s' : Store) : Prop :=
  s'.results j = s.results id

/-- A result that is another one again stands for it, with its place. -/
theorem Doubles.standsFor {id j : Nat} (h : Doubles id j s s') :
    StandsFor symbols id (.temp j) s s' where
  value r hr := by rw [Operand.value?, h, hr, Option.map_some]
  place r p hr hp := by rw [Operand.place?, h, hr, Option.bind_some, hp]

/-- A relation between stores under which an operand stands for a result, and which lasts as long as
the operand means the same. -/
structure Lasting (symbols : SymbolTable) (id : Nat) (o : Operand) (R : Store → Store → Prop) :
    Prop where
  stands : ∀ {s s'}, R s s' → StandsFor symbols id o s s'
  step : ∀ {t : Triple} {s s' s₁ s₁'}, R s s' → t.step symbols s = some s₁ → id ≠ t.id →
    o ≠ .temp t.id → (o.temp? = none → s₁'.memory = s'.memory) →
    (∀ j, j ≠ t.id → s₁'.results j = s'.results j) → R s₁ s₁'

theorem lasting_standsFor {id : Nat} {o : Operand} :
    Lasting symbols id o (StandsFor symbols id o) :=
  ⟨fun h => h, StandsFor.of_step⟩

theorem lasting_doubles {id j : Nat} : Lasting symbols id (.temp j) (Doubles id j) where
  stands := Doubles.standsFor
  step h hstep hid hj _ hresults := by
    rw [Doubles, hresults _ fun hid => hj (hid ▸ rfl), results_of_step hstep hid]
    exact h

/-- The guard survives that references are renamed to what stands for them. -/
def Survives (symbols : SymbolTable) (guard : Store → Triple → Prop) (id : Nat) (o : Operand)
    (R : Store → Store → Prop) : Prop :=
  ∀ (t : Triple) (s s' s₁ : Store), SameExcept id s s' → (t.refersTo id = true → R s s') →
    t.step symbols s = some s₁ → guard s t → guard s' (t.rename id o)

/-- Renaming references to what stands for them leaves the final memory alone. By induction on the
run; after an assignment to the variable that stands for the result, nothing refers to the result
any more. -/
theorem Runs.rename {guard : Store → Triple → Prop} {id : Nat} {o : Operand}
    {R : Store → Store → Prop} (ho : o.isConst = false) {triples : List Triple}
    (hfresh : ∀ t ∈ triples, id ≠ t.id ∧ o ≠ .temp t.id) (hreaches : Reaches id o triples)
    (hlasting : Lasting symbols id o R) (hsurvives : Survives symbols guard id o R)
    (hsame : SameExcept id s s') (hstands : R s s' ∨ ∀ t ∈ triples, t.refersTo id = false)
    (h : Runs symbols guard triples s s₁) :
    ∃ s₁', Runs symbols guard (triples.map (·.rename id o)) s' s₁' ∧ s₁'.memory = s₁.memory := by
  induction h generalizing s' with
  | nil s => exact ⟨s', .nil s', hsame.memory⟩
  | @cons t rest s s₂ s₁ hguard hstep h ih =>
    obtain ⟨⟨hid, hoid⟩, hfresh⟩ := List.forall_mem_cons.mp hfresh
    have hstands' (href : t.refersTo id = true) : R s s' := by
      rcases hstands with hstands | hnone
      · exact hstands
      · simp [hnone t List.mem_cons_self] at href
    obtain ⟨s₂', hstep', hsame', hmemory, hresults⟩ :=
      step_rename ho hsame (fun href => hlasting.stands (hstands' href)) hstep
    rw [Reaches] at hreaches
    -- An assignment ends the statement, and with it the use of a result that a variable stands for.
    have hnext : Reaches id o rest ∧ (R s₂ s₂' ∨ ∀ u ∈ rest, u.refersTo id = false) := by
      split at hreaches
      next hassign => exact ⟨reaches_of_forall hreaches, .inr hreaches⟩
      next hassign =>
        refine ⟨hreaches, hstands.imp (fun hstands => ?_) fun hnone =>
          (List.forall_mem_cons.mp hnone).2⟩
        exact hlasting.step hstands hstep hid hoid
          (fun hvar => hmemory fun hop => hassign ⟨hop, hvar⟩) hresults
    obtain ⟨s₁', hrun', hfinal⟩ := ih hfresh hnext.1 hsame' hnext.2
    exact ⟨s₁', .cons (hsurvives _ _ _ _ hsame hstands' hstep hguard) hstep' hrun', hfinal⟩

end Accumulator.Triple
