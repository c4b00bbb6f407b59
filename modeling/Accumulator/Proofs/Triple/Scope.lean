import Accumulator.Proofs.Triple.Rename
import Accumulator.Triple.Optimize

/-!
# Scopes and widths

A draft puts triples into good order (`Orderly`): a triple refers to earlier ones of its own
statement only, its width follows from its operands, and no number occurs twice. Strength
reduction keeps that. Merging duplicates makes references cross statements, which is the wide
kind of scope.
-/

namespace Accumulator

namespace Triple

variable {t : Triple} {triples : List Triple} {id : Nat} {o : Operand}

/-! ## References -/

/-- Numbers of the triples that a triple refers to. -/
def refs (t : Triple) : List Nat :=
  (t.lhs :: t.rhs.toList).filterMap Operand.temp?

/-- The references of a triple are the results it refers to. -/
theorem mem_refs : id ∈ t.refs ↔ t.refersTo id = true := by
  have htemp (o : Operand) : o.temp? = some id ↔ o = .temp id := by
    cases o <;> simp [Operand.temp?]
  simp only [refs, List.mem_filterMap, htemp, exists_eq_right, List.mem_cons, Option.mem_toList,
    refersTo, Bool.or_eq_true, decide_eq_true_eq]
  exact or_congr_left eq_comm

/-- The variables that a triple names. -/
def Names (t : Triple) (name : String) : Prop :=
  .var name ∈ t.lhs :: t.rhs.toList

/-- The results in scope after a triple. An assignment ends a statement; unless the scope is wide,
results are in scope up to the end of their statement only. -/
def nextScope (wide : Bool) (scope : List Nat) (t : Triple) : List Nat :=
  if t.op = .assign then (if wide then scope else []) else t.id :: scope

/-- A triple that is no assignment puts its result in scope. -/
theorem nextScope_of_ne {wide : Bool} {scope : List Nat} (h : t.op ≠ .assign) :
    nextScope wide scope t = t.id :: scope :=
  if_neg h

theorem nextScope_of_assign {scope : List Nat} (h : t.op = .assign) :
    nextScope false scope t = [] :=
  if_pos h

theorem mem_nextScope {wide : Bool} {scope : List Nat} (h : id ∈ nextScope wide scope t) :
    id = t.id ∨ id ∈ scope := by
  unfold nextScope at h
  split at h
  · split at h
    · exact .inr h
    · cases h
  · exact List.mem_cons.mp h

/-- References go to triples in scope. -/
def Scoped (wide : Bool) : List Nat → List Triple → Prop
  | _, [] => True
  | scope, t :: rest =>
    (∀ id ∈ t.refs, id ∈ scope) ∧ Scoped wide (nextScope wide scope t) rest

/-- What is in scope after triples. -/
def scopeAfter (wide : Bool) (scope : List Nat) : List Triple → List Nat
  | [] => scope
  | t :: rest => scopeAfter wide (nextScope wide scope t) rest

theorem scoped_append {wide : Bool} {scope : List Nat} {xs ys : List Triple} :
    Scoped wide scope (xs ++ ys) ↔
      Scoped wide scope xs ∧ Scoped wide (scopeAfter wide scope xs) ys := by
  induction xs generalizing scope with
  | nil => simp [Scoped, scopeAfter]
  | cons t xs ih => simp [Scoped, scopeAfter, ih, and_assoc]

theorem scopeAfter_append {wide : Bool} {scope : List Nat} {xs ys : List Triple} :
    scopeAfter wide scope (xs ++ ys) = scopeAfter wide (scopeAfter wide scope xs) ys := by
  induction xs generalizing scope with
  | nil => rfl
  | cons t xs ih => simp [scopeAfter, ih]

/-- In the wide sense results stay in scope. -/
theorem subset_scopeAfter {scope : List Nat} {id : Nat} (h : id ∈ scope) :
    id ∈ scopeAfter true scope triples := by
  induction triples generalizing scope with
  | nil => exact h
  | cons t rest ih =>
    refine ih ?_
    unfold nextScope
    split
    · exact h
    · exact List.mem_cons_of_mem _ h

/-- More in scope does no harm, and neither does the wide sense, where an assignment leaves the
scope as it is. -/
theorem Scoped.mono {wide wide' : Bool} {scope scope' : List Nat}
    (hwide : wide = true → wide' = true) (hscope : ∀ id ∈ scope, id ∈ scope')
    (h : Scoped wide scope triples) :
    Scoped wide' scope' triples := by
  induction triples generalizing scope scope' with
  | nil => trivial
  | cons t rest ih =>
    obtain ⟨hrefs, hrest⟩ := h
    refine ⟨fun id hid => hscope id (hrefs id hid), ih ?_ hrest⟩
    unfold nextScope
    split
    · split
      next hwide' =>
        rw [if_pos (hwide hwide')]
        exact hscope
      next => exact List.forall_mem_nil _
    · simp only [List.mem_cons]
      exact fun id hid => hid.imp_right (hscope id)

/-- A result that is neither in scope nor computed is not referred to. -/
theorem not_refersTo_of_scoped {wide : Bool} {scope : List Nat} (h : Scoped wide scope triples)
    (hscope : id ∉ scope) (hfresh : ∀ t ∈ triples, id ≠ t.id) :
    ∀ t ∈ triples, t.refersTo id = false := by
  induction triples generalizing scope with
  | nil => exact List.forall_mem_nil _
  | cons t rest ih =>
    obtain ⟨hrefs, hrest⟩ := h
    obtain ⟨hid, hfresh⟩ := List.forall_mem_cons.mp hfresh
    refine List.forall_mem_cons.mpr ⟨?_, ih hrest ?_ hfresh⟩
    · exact Bool.eq_false_iff.mpr fun href => hscope (hrefs id (mem_refs.mpr href))
    · exact fun hmem => (mem_nextScope hmem).elim hid hscope

/-- References within a statement come before its end. -/
theorem reaches_of_scoped {scope : List Nat} (h : Scoped false scope triples)
    (hfresh : ∀ t ∈ triples, id ≠ t.id) : Reaches id o triples := by
  induction triples generalizing scope with
  | nil => trivial
  | cons t rest ih =>
    obtain ⟨_, hrest⟩ := h
    obtain ⟨_, hfresh⟩ := List.forall_mem_cons.mp hfresh
    rw [Reaches]
    split
    next hassign =>
      rw [nextScope_of_assign hassign.1] at hrest
      exact not_refersTo_of_scoped hrest List.not_mem_nil hfresh
    next => exact ih hrest hfresh

/-- What stands for a result and is one itself reaches as far as need be: assignments do not change
it. -/
theorem reaches_temp (j : Nat) : Reaches id (.temp j) triples := by
  induction triples with
  | nil => trivial
  | cons t rest ih => simpa [Reaches, Operand.temp?] using ih

/-- After a renaming the references are the old ones, without the one that is renamed, and what it
is renamed to. -/
theorem mem_refs_rename {j : Nat} (h : j ∈ (t.rename id o).refs) :
    (j ∈ t.refs ∧ j ≠ id) ∨ (id ∈ t.refs ∧ o = .temp j) := by
  have hsubst (x : Operand) (hx : (if x = .temp id then o else x) = .temp j) :
      (x = .temp j ∧ j ≠ id) ∨ (x = .temp id ∧ o = .temp j) := by
    split at hx
    next hid => exact .inr ⟨hid, hx⟩
    next hid => exact .inl ⟨hx, fun hj => hid (hj ▸ hx)⟩
  simp only [mem_refs, refersTo, rename, Bool.or_eq_true, decide_eq_true_eq,
    Option.map_eq_some_iff] at h ⊢
  rcases h with h | ⟨x, hx, h⟩
  · rcases hsubst _ h with ⟨hj, hne⟩ | ⟨hid, hoj⟩
    · exact .inl ⟨.inl hj, hne⟩
    · exact .inr ⟨.inl hid, hoj⟩
  · rcases hsubst _ h with ⟨hj, hne⟩ | ⟨hid, hoj⟩
    · exact .inl ⟨.inr (hj ▸ hx), hne⟩
    · exact .inr ⟨.inr (hid ▸ hx), hoj⟩

/-- Renaming a result that is in scope to one that is, or to a variable. -/
theorem Scoped.rename {wide : Bool} {scope scope' : List Nat} (h : Scoped wide scope triples)
    (hscope : ∀ j ∈ scope, j ≠ id → j ∈ scope')
    (ho : id ∈ scope → ∀ j, o = .temp j → j ∈ scope') (hfresh : ∀ t ∈ triples, id ≠ t.id) :
    Scoped wide scope' (triples.map (·.rename id o)) := by
  induction triples generalizing scope scope' with
  | nil => trivial
  | cons t rest ih =>
    obtain ⟨hrefs, hrest⟩ := h
    obtain ⟨hid, hfresh⟩ := List.forall_mem_cons.mp hfresh
    refine ⟨fun j hj => ?_, ?_⟩
    · rcases mem_refs_rename hj with ⟨hj, hne⟩ | ⟨hid, hoj⟩
      · exact hscope j (hrefs j hj) hne
      · exact ho (hrefs id hid) j hoj
    · change Scoped wide (nextScope wide scope' t) _
      unfold nextScope at hrest ⊢
      by_cases hop : t.op = .assign
      · rw [if_pos hop] at hrest ⊢
        cases wide with
        | false => exact ih hrest (by simp) (by simp) hfresh
        | true => exact ih hrest hscope ho hfresh
      · rw [if_neg hop] at hrest ⊢
        refine ih hrest (fun j hj hne => ?_) (fun hmem j hoj => ?_) hfresh
        · exact List.mem_cons.mpr ((List.mem_cons.mp hj).imp_right fun hj => hscope j hj hne)
        · have hmem := (List.mem_cons.mp hmem).resolve_left hid
          exact List.mem_cons_of_mem _ (ho hmem j hoj)

end Triple

/-! ## Widths -/

/-- Width of an operand, given the widths of results. -/
def Operand.widthIn (symbols : SymbolTable) (widths : Nat → Width) : Operand → Width
  | const value => Width.ofConstant value
  | var name => symbols.widthOf name
  | temp id => widths id

namespace Triple

/-- The width a triple is computed at, given the widths of results. -/
def widthIn (symbols : SymbolTable) (widths : Nat → Width) (t : Triple) : Width :=
  match t.op with
  | .address => .word
  | .deref => .byte
  | .index =>
    match t.lhs with
    | .var name => symbols.widthOf name
    | _ => .byte
  | .inc | .dec => t.lhs.widthIn symbols widths
  | _ =>
    if t.op = .assign ∧ t.throughPointer then
      .byte
    else
      match t.rhs with
      | some rhs => (t.lhs.widthIn symbols widths).max (rhs.widthIn symbols widths)
      | none => t.lhs.widthIn symbols widths

/-- The widths of results after a triple. -/
def noteWidth (widths : Nat → Width) (t : Triple) : Nat → Width :=
  fun id => if id = t.id then t.resultWidth else widths id

/-- Every triple has the width that its operands give. -/
def Typed (symbols : SymbolTable) : (widths : Nat → Width) → List Triple → Prop
  | _, [] => True
  | widths, t :: rest =>
    t.width = t.widthIn symbols widths ∧ Typed symbols (noteWidth widths t) rest

variable {symbols : SymbolTable} {widths widths' : Nat → Width} {t : Triple}
  {triples : List Triple} {id : Nat} {o : Operand}

/-- The widths of the results of triples. A missing one counts as a byte. -/
def widthsOf (done : List Triple) (id : Nat) : Width :=
  match find? done id with
  | some t => t.resultWidth
  | none => .byte

/-- The width that is derived depends on the widths of the results before it. -/
theorem derivedWidth_eq (t : Triple) (done : List Triple) (symbols : SymbolTable) :
    t.derivedWidth done symbols = t.widthIn symbols (widthsOf done) := by
  have hwidth (o : Operand) : o.width done symbols = o.widthIn symbols (widthsOf done) := by
    cases o <;> rfl
  simp only [derivedWidth, hwidth]
  rfl

/-- One more triple adds one width. -/
theorem widthsOf_append {done : List Triple} (hfresh : ∀ u ∈ done, u.id ≠ t.id) :
    widthsOf (done ++ [t]) = noteWidth (widthsOf done) t := by
  funext j
  simp only [widthsOf, noteWidth, find?, List.find?_append]
  by_cases hj : j = t.id
  · subst hj
    have hnone : done.find? (·.id = t.id) = none := by
      simpa [List.find?_eq_none] using hfresh
    simp [hnone]
  · simp [hj, Ne.symm hj]

/-- Widths that are as they should be stay when they are derived again. -/
theorem deriveWidths_eq_self {done : List Triple} (h : Typed symbols (widthsOf done) triples)
    (hfresh : ((done ++ triples).map Triple.id).Nodup) :
    deriveWidths symbols done triples = done ++ triples := by
  induction triples generalizing done with
  | nil => simp [deriveWidths]
  | cons t rest ih =>
    obtain ⟨hwidth, hrest⟩ := h
    have hself : { t with width := t.derivedWidth done symbols } = t := by
      rw [derivedWidth_eq, ← hwidth]
    have hdone : ∀ u ∈ done, u.id ≠ t.id := by
      intro u hu
      rw [List.map_append, List.nodup_append] at hfresh
      exact hfresh.2.2 _ (List.mem_map_of_mem hu) _ (by simp)
    rw [deriveWidths, hself, ih]
    · simp
    · rwa [widthsOf_append hdone]
    · simpa using hfresh

/-- Indexing is of variables. -/
def IndexesVar (t : Triple) : Prop :=
  t.op = .index → ∃ name, t.lhs = .var name

/-- A triple whose operands are replaced by operands of the same width. -/
theorem widthIn_mapOperands {f : Operand → Operand} (hindex : t.IndexesVar)
    (hfixed : ∀ name, f (.var name) = .var name)
    (hf : ∀ x ∈ t.lhs :: t.rhs.toList, (f x).widthIn symbols widths' = x.widthIn symbols widths) :
    (t.mapOperands f).widthIn symbols widths' = t.widthIn symbols widths := by
  rcases t with ⟨n, lhs, op, rhs, width, addressOnly, noSave, throughPointer⟩
  have hlhs : (f lhs).widthIn symbols widths' = lhs.widthIn symbols widths :=
    hf lhs List.mem_cons_self
  cases op with
  | index =>
    obtain ⟨name, rfl⟩ := hindex rfl
    simp [mapOperands, widthIn, hfixed]
  | _ =>
    cases rhs with
    | none => simp [mapOperands, widthIn, hlhs]
    | some x =>
      have hrhs : (f x).widthIn symbols widths' = x.widthIn symbols widths := hf x (by simp)
      simp [mapOperands, widthIn, hlhs, hrhs]

/-- The width of a triple depends on the widths of what it refers to. -/
theorem widthIn_congr (h : ∀ j ∈ t.refs, widths' j = widths j) :
    t.widthIn symbols widths' = t.widthIn symbols widths := by
  have hwidth : ∀ x ∈ t.lhs :: t.rhs.toList,
      x.widthIn symbols widths' = x.widthIn symbols widths := by
    intro x hx
    cases x with
    | const | var => rfl
    | temp j => exact h j (List.mem_filterMap.mpr ⟨_, hx, rfl⟩)
  have hlhs := hwidth t.lhs List.mem_cons_self
  unfold widthIn
  cases hrhs : t.rhs with
  | none => simp only [hlhs]
  | some x => simp only [hlhs, hwidth x (by simp [hrhs])]

/-- Only the widths of results in scope matter. -/
theorem Typed.congr {wide : Bool} {scope : List Nat} (h : Typed symbols widths triples)
    (hscoped : Scoped wide scope triples) (hwidths : ∀ j ∈ scope, widths' j = widths j) :
    Typed symbols widths' triples := by
  induction triples generalizing widths widths' scope with
  | nil => trivial
  | cons t rest ih =>
    obtain ⟨hwidth, hrest⟩ := h
    obtain ⟨hrefs, hscoped⟩ := hscoped
    refine ⟨?_, ih hrest hscoped fun j hj => ?_⟩
    · rw [hwidth]
      exact (widthIn_congr fun j hj => hwidths j (hrefs j hj)).symm
    · simp only [noteWidth]
      split
      next => rfl
      next hne => exact hwidths j ((mem_nextScope hj).resolve_left hne)

/-- Renaming a result to an operand of its width. By induction on the list, with the widths that are
known before each triple. -/
theorem Typed.rename (h : Typed symbols widths triples) (hindex : ∀ t ∈ triples, t.IndexesVar)
    (hwidths : ∀ j, j ≠ id → widths' j = widths j) (ho : o.widthIn symbols widths' = widths id)
    (hfresh : ∀ t ∈ triples, id ≠ t.id ∧ o ≠ .temp t.id) :
    Typed symbols widths' (triples.map (·.rename id o)) := by
  induction triples generalizing widths widths' with
  | nil => trivial
  | cons t rest ih =>
    obtain ⟨hwidth, hrest⟩ := h
    obtain ⟨hvar, hindex⟩ := List.forall_mem_cons.mp hindex
    obtain ⟨⟨hid, hoid⟩, hfresh⟩ := List.forall_mem_cons.mp hfresh
    -- Every operand is as wide as before: the renamed one by assumption, and any other because its
    -- width is the same.
    have hoperand (x : Operand) :
        (if x = .temp id then o else x).widthIn symbols widths' = x.widthIn symbols widths := by
      split
      next hx => rw [hx, ho, Operand.widthIn]
      next hx =>
        cases x with
        | const | var => rfl
        | temp j => exact hwidths j fun hj => hx (hj ▸ rfl)
    refine ⟨?_, ih hrest hindex (fun j hj => ?_) ?_ hfresh⟩
    · exact hwidth.trans (widthIn_mapOperands hvar (fun _ => by simp) fun x _ => hoperand x).symm
    · change (if j = t.id then t.resultWidth else widths' j) = noteWidth widths t j
      rw [noteWidth, hwidths j hj]
    · rw [show noteWidth widths t id = widths id from if_neg hid, ← ho]
      cases o with
      | const | var => rfl
      | temp j => exact if_neg fun (hj : j = t.id) => hoid (by rw [hj])

/-- The widths of results after triples. -/
def widthsAfter (widths : Nat → Width) (triples : List Triple) : Nat → Width :=
  triples.foldl noteWidth widths

theorem typed_append {xs ys : List Triple} :
    Typed symbols widths (xs ++ ys) ↔
      Typed symbols widths xs ∧ Typed symbols (widthsAfter widths xs) ys := by
  induction xs generalizing widths with
  | nil => simp [Typed, widthsAfter]
  | cons t xs ih => simp [Typed, widthsAfter, ih, and_assoc]

/-- Triples with other numbers do not change the width of a result. -/
theorem widthsAfter_of_fresh {j : Nat} (h : ∀ t ∈ triples, j ≠ t.id) :
    widthsAfter widths triples j = widths j := by
  induction triples generalizing widths with
  | nil => rfl
  | cons t rest ih =>
    obtain ⟨hj, hrest⟩ := List.forall_mem_cons.mp h
    rw [widthsAfter, List.foldl_cons]
    exact (ih hrest).trans (if_neg hj)

/-! ## Lists of triples in good order -/

/-- Indexing is of variables, and sums of literals have been folded. -/
structure WellFormed (t : Triple) : Prop where
  indexesVar : t.IndexesVar
  notFolded : t.op = .add ∨ t.op = .sub → t.lhs.isConst = true →
    ∀ x, t.rhs = some x → x.isConst = false

/-- Renaming a result to what is no literal keeps triples well formed. -/
theorem WellFormed.rename (h : t.WellFormed) (ho : o.isConst = false) :
    (t.rename id o).WellFormed := by
  have hconst (x : Operand) : (if x = .temp id then o else x).isConst = x.isConst := by
    split
    next hx =>
      rw [hx, ho]
      rfl
    next => rfl
  constructor
  · intro hop
    obtain ⟨name, hname⟩ := h.indexesVar hop
    exact ⟨name, by simp [Triple.rename, hname]⟩
  · intro hop hlhs x hx
    obtain ⟨y, hy, rfl⟩ := Option.map_eq_some_iff.mp hx
    rw [hconst]
    exact h.notFolded hop ((hconst _).symm.trans hlhs) y hy

/-- The triple follows a pointer, its left operand. -/
def followsPointer (t : Triple) : Bool :=
  t.op = .deref || t.op = .assign && t.throughPointer

/-- A triple that may take the place of another one. -/
structure Similar (symbols : SymbolTable) (t t' : Triple) : Prop where
  id : t'.id = t.id
  assign : t'.op = .assign ↔ t.op = .assign
  refs : ∀ j ∈ t'.refs, j ∈ t.refs
  width : t'.width = t.width
  resultWidth : t'.resultWidth = t.resultWidth
  widthIn : ∀ widths, t'.widthIn symbols widths = t.widthIn symbols widths
  wellFormed : t'.WellFormed
  pointer : t'.followsPointer = true → t.followsPointer = true ∧ t'.lhs = t.lhs
  step : ∀ s, t'.step symbols s = t.step symbols s

theorem Similar.refl (h : t.WellFormed) : Similar symbols t t where
  id := rfl
  assign := Iff.rfl
  refs _ := fun h => h
  width := rfl
  resultWidth := rfl
  widthIn _ := rfl
  wellFormed := h
  pointer hpointer := ⟨hpointer, rfl⟩
  step _ := rfl

/-- Similarity is transitive. -/
theorem Similar.trans {t' t'' : Triple} (h : Similar symbols t t') (h' : Similar symbols t' t'') :
    Similar symbols t t'' where
  id := h'.id.trans h.id
  assign := h'.assign.trans h.assign
  refs j hj := h.refs j (h'.refs j hj)
  width := h'.width.trans h.width
  resultWidth := h'.resultWidth.trans h.resultWidth
  widthIn widths := (h'.widthIn widths).trans (h.widthIn widths)
  wellFormed := h'.wellFormed
  pointer hpointer :=
    have h₁ := h'.pointer hpointer
    have h₂ := h.pointer h₁.1
    ⟨h₂.1, h₁.2.trans h₂.2⟩
  step s := (h'.step s).trans (h.step s)

/-- What holds of the triples of a draft and is kept by optimizing them. -/
structure Orderly (symbols : SymbolTable) (wide : Bool) (scope : List Nat) (widths : Nat → Width)
    (triples : List Triple) : Prop where
  inScope : Scoped wide scope triples
  typed : Typed symbols widths triples
  wellFormed : ∀ t ∈ triples, t.WellFormed
  nodup : (triples.map Triple.id).Nodup
  fresh : ∀ t ∈ triples, t.id ∉ scope

namespace Orderly

variable {wide : Bool} {scope : List Nat} {rest : List Triple}

theorem ne_id (h : Orderly symbols wide scope widths (t :: rest)) : ∀ u ∈ rest, t.id ≠ u.id := by
  intro u hu heq
  have hnodup := h.nodup
  rw [List.map_cons, List.nodup_cons] at hnodup
  exact hnodup.1 (heq ▸ List.mem_map_of_mem hu)

/-- What is in order is so in the wide sense. -/
theorem widen (h : Orderly symbols wide scope widths triples) :
    Orderly symbols true scope widths triples :=
  { h with inScope := h.inScope.mono (fun _ => rfl) fun _ hid => hid }

/-- What follows the first triple is in order, with its result in scope. -/
theorem tail (h : Orderly symbols wide scope widths (t :: rest)) :
    Orderly symbols wide (nextScope wide scope t) (noteWidth widths t) rest where
  inScope := h.inScope.2
  typed := h.typed.2
  wellFormed := (List.forall_mem_cons.mp h.wellFormed).2
  nodup := (List.nodup_cons.mp h.nodup).2
  fresh u hu hmem :=
    (mem_nextScope hmem).elim (fun hid => h.ne_id u hu hid.symm)
      (h.fresh u (List.mem_cons_of_mem _ hu))

/-- A result that an operand stands for can be left out. -/
theorem rename (h : Orderly symbols wide scope widths (t :: rest)) (hop : t.op ≠ .assign)
    (ho : o.isConst = false) (hscope : ∀ j, o = .temp j → j ∈ scope)
    (hwidth : o.widthIn symbols widths = t.resultWidth) :
    Orderly symbols wide scope widths (rest.map (·.rename t.id o)) := by
  have htail := h.tail
  rw [nextScope_of_ne hop] at htail
  have hfresh : ∀ u ∈ rest, t.id ≠ u.id ∧ o ≠ .temp u.id := fun u hu =>
    ⟨h.ne_id u hu, fun hou => h.fresh u (List.mem_cons_of_mem _ hu) (hscope _ hou)⟩
  have hnew : ∀ j, j ≠ t.id → widths j = noteWidth widths t j := fun j hj => (if_neg hj).symm
  constructor
  · exact htail.inScope.rename (fun j hj hne => (List.mem_cons.mp hj).resolve_left hne)
      (fun _ j hj => hscope j hj) fun u hu => (hfresh u hu).1
  · exact htail.typed.rename (fun u hu => (htail.wellFormed u hu).indexesVar) hnew
      (hwidth.trans (if_pos rfl).symm) hfresh
  · intro u hu
    obtain ⟨v, hv, rfl⟩ := List.mem_map.mp hu
    exact (htail.wellFormed v hv).rename ho
  · rw [List.map_map]
    exact htail.nodup
  · intro u hu
    obtain ⟨v, hv, rfl⟩ := List.mem_map.mp hu
    exact fun hmem => htail.fresh v hv (List.mem_cons_of_mem _ hmem)

/-- Leaving triples out brings in no number that is in scope. -/
theorem fresh_of_sublist {after : List Triple}
    (h : Orderly symbols wide scope widths triples)
    (hids : List.Sublist (after.map Triple.id) (triples.map Triple.id)) :
    ∀ u ∈ after, u.id ∉ scope := by
  intro u hu
  obtain ⟨v, hv, hid⟩ := List.mem_map.mp (hids.subset (List.mem_map_of_mem hu))
  rw [← hid]
  exact h.fresh v hv

/-- Replacing the first triple by a similar one, and the others by fewer that are in order. -/
theorem cons_similar {t' : Triple} {rest' : List Triple}
    (h : Orderly symbols wide scope widths (t :: rest)) (hsimilar : Similar symbols t t')
    (hrest : Orderly symbols wide (nextScope wide scope t) (noteWidth widths t) rest')
    (hsublist : List.Sublist (rest'.map Triple.id) (rest.map Triple.id)) :
    Orderly symbols wide scope widths (t' :: rest') ∧
      List.Sublist ((t' :: rest').map Triple.id) ((t :: rest).map Triple.id) := by
  have hnote : noteWidth widths t' = noteWidth widths t := by
    funext id
    rw [noteWidth, noteWidth, hsimilar.id, hsimilar.resultWidth]
  have hids : List.Sublist ((t' :: rest').map Triple.id) ((t :: rest).map Triple.id) := by
    rw [List.map_cons, List.map_cons, hsimilar.id]
    exact hsublist.cons_cons _
  refine ⟨⟨⟨fun j hj => h.inScope.1 j (hsimilar.refs j hj), ?_⟩, ⟨?_, ?_⟩, ?_, ?_, ?_⟩, hids⟩
  · have hnext : nextScope wide scope t' = nextScope wide scope t := by
      simp only [nextScope, hsimilar.assign, hsimilar.id]
    rw [hnext]
    exact hrest.inScope
  · rw [hsimilar.width, hsimilar.widthIn, h.typed.1]
  · rw [hnote]
    exact hrest.typed
  · exact List.forall_mem_cons.mpr ⟨hsimilar.wellFormed, hrest.wellFormed⟩
  · exact hids.nodup h.nodup
  · exact h.fresh_of_sublist hids

/-- What is in order after a list that starts in order. -/
theorem right {xs ys : List Triple} (h : Orderly symbols wide scope widths (xs ++ ys)) :
    Orderly symbols wide (scopeAfter wide scope xs) (widthsAfter widths xs) ys := by
  induction xs generalizing scope widths with
  | nil => exact h
  | cons t xs ih => exact ih h.tail

/-- Replacing the end of a list by fewer triples that are in order there. -/
theorem append_similar {xs ys ys' : List Triple} (h : Orderly symbols wide scope widths (xs ++ ys))
    (hys : Orderly symbols wide (scopeAfter wide scope xs) (widthsAfter widths xs) ys')
    (hsublist : List.Sublist (ys'.map Triple.id) (ys.map Triple.id)) :
    Orderly symbols wide scope widths (xs ++ ys') ∧
      List.Sublist ((xs ++ ys').map Triple.id) ((xs ++ ys).map Triple.id) := by
  induction xs generalizing scope widths with
  | nil => exact ⟨hys, hsublist⟩
  | cons t xs ih =>
    obtain ⟨hrest, hids⟩ := ih h.tail hys
    exact h.cons_similar (.refl (h.wellFormed t List.mem_cons_self)) hrest hids

/-- Replacing one triple by a similar one. -/
theorem replace {xs ys : List Triple} {t' : Triple}
    (h : Orderly symbols wide scope widths (xs ++ t :: ys)) (hsimilar : Similar symbols t t') :
    Orderly symbols wide scope widths (xs ++ t' :: ys) := by
  obtain ⟨hys, hids⟩ := h.right.cons_similar hsimilar h.right.tail (List.Sublist.refl _)
  exact (h.append_similar hys hids).1

end Orderly

/-- The guard survives that a triple is replaced by a similar one. -/
def Tolerates (symbols : SymbolTable) (guard : Store → Triple → Prop) : Prop :=
  ∀ (s : Store) (t t' : Triple), Similar symbols t t' → guard s t → guard s t'

/-- A triple may be replaced by a similar one, if the guard allows that. -/
theorem Runs.replace {guard : Store → Triple → Prop} {xs ys : List Triple} {t' : Triple}
    {s s₁ : Store} (hguard : Tolerates symbols guard) (hsimilar : Similar symbols t t')
    (h : Runs symbols guard (xs ++ t :: ys) s s₁) : Runs symbols guard (xs ++ t' :: ys) s s₁ := by
  obtain ⟨s₂, hxs, hys⟩ := h.split
  cases hys with
  | cons ht hstep hys =>
    exact hxs.append (.cons (hguard _ _ _ hsimilar ht) ((hsimilar.step s₂).trans hstep) hys)

end Triple

end Accumulator
