import Accumulator.Draft
import Accumulator.Proofs.Outcome
import Accumulator.Proofs.Triple.Scope

/-!
# Drafts are in good order

Whatever events are accepted, the triples of the draft are in good order (`Draft.Valid`): operands
on the stack are results of the current statement or declared variables, each new triple takes its
width from them, and the end of a statement leaves the stack empty. Declaring more variables or
giving them dimensions does not change a width that was derived before.

An event that is rejected may leave operands behind at the end of a statement. Later statements can
use them, so after rejected events the draft is valid in the wide sense only: the results of all
statements are in scope.
-/

namespace Accumulator

/-! ## Growing a list of triples -/

namespace Triple

variable {symbols symbols' : SymbolTable} {widths : Nat → Width} {wide : Bool} {scope : List Nat}
  {t u : Triple} {triples : List Triple} {id : Nat}

/-- The width of a triple depends on the widths of the variables that it names. -/
theorem widthIn_symbols (h : ∀ name, t.Names name → symbols'.widthOf name = symbols.widthOf name) :
    t.widthIn symbols' widths = t.widthIn symbols widths := by
  have hwidth : ∀ x ∈ t.lhs :: t.rhs.toList,
      x.widthIn symbols' widths = x.widthIn symbols widths := by
    intro x hx
    cases x with
    | const | temp => rfl
    | var name => exact h name hx
  have hlhs := hwidth t.lhs List.mem_cons_self
  unfold widthIn
  cases hrhs : t.rhs with
  | none =>
    simp only [hlhs]
    cases hvar : t.lhs with
    | var name => simp only [h name (by simp [Names, hvar])]
    | _ => rfl
  | some x =>
    simp only [hlhs, hwidth x (by simp [hrhs])]
    cases hvar : t.lhs with
    | var name => simp only [h name (by simp [Names, hvar])]
    | _ => rfl

/-- Widths depend on the widths of the variables that are named. -/
theorem Orderly.congr_symbols (h : Orderly symbols wide scope widths triples)
    (hwidths : ∀ t ∈ triples, ∀ name, t.Names name →
      symbols'.widthOf name = symbols.widthOf name) :
    Orderly symbols' wide scope widths triples := by
  refine ⟨h.inScope, ?_, h.wellFormed, h.nodup, h.fresh⟩
  have htyped := h.typed
  clear h
  induction triples generalizing widths with
  | nil => trivial
  | cons t rest ih =>
    obtain ⟨ht, hrest⟩ := List.forall_mem_cons.mp hwidths
    exact ⟨htyped.1.trans (widthIn_symbols ht).symm, ih hrest htyped.2⟩

/-- One more triple at the end keeps triples in order, if it refers to what is in scope there, has
the width that follows from its operands, and has a new number. -/
theorem Orderly.snoc (h : Orderly symbols wide scope widths triples)
    (hrefs : ∀ j ∈ t.refs, j ∈ scopeAfter wide scope triples)
    (hwidth : t.width = t.widthIn symbols (widthsAfter widths triples)) (hwell : t.WellFormed)
    (hfresh : ∀ u ∈ triples, u.id ≠ t.id) (hscope : t.id ∉ scope) :
    Orderly symbols wide scope widths (triples ++ [t]) := by
  constructor
  · exact scoped_append.mpr ⟨h.inScope, hrefs, trivial⟩
  · exact typed_append.mpr ⟨h.typed, hwidth, trivial⟩
  · intro u hu
    rcases List.mem_append.mp hu with hu | hu
    · exact h.wellFormed u hu
    · obtain rfl := List.mem_singleton.mp hu
      exact hwell
  · rw [List.map_append, List.nodup_append]
    refine ⟨h.nodup, by simp, fun j hj k hk => ?_⟩
    obtain ⟨u, hu, rfl⟩ := List.mem_map.mp hj
    obtain rfl := List.mem_singleton.mp hk
    exact hfresh u hu
  · intro u hu
    rcases List.mem_append.mp hu with hu | hu
    · exact h.fresh u hu
    · obtain rfl := List.mem_singleton.mp hu
      exact hscope

/-- The widths after a list are those of its triples. -/
theorem widthsAfter_eq {done : List Triple} (h : ((done ++ triples).map Triple.id).Nodup) :
    widthsAfter (widthsOf done) triples = widthsOf (done ++ triples) := by
  induction triples generalizing done with
  | nil => simp [widthsAfter]
  | cons t rest ih =>
    have hfresh : ∀ u ∈ done, u.id ≠ t.id := by
      intro u hu
      rw [List.map_append, List.nodup_append] at h
      exact h.2.2 _ (List.mem_map_of_mem hu) _ (by simp)
    rw [widthsAfter, List.foldl_cons, ← widthsOf_append hfresh]
    have hrest : widthsAfter (widthsOf (done ++ [t])) rest = widthsOf (done ++ [t] ++ rest) :=
      ih (by simpa using h)
    simpa [widthsAfter] using hrest

/-- A triple after which something is in scope does not end a statement, or ends it in vain. -/
theorem subset_nextScope_of_mem (h : id ∈ nextScope wide scope t) :
    ∀ j ∈ scope, j ∈ nextScope wide scope t := by
  intro j hj
  unfold nextScope at h ⊢
  split at h
  next hop =>
    rw [if_pos hop]
    split at h
    next hwide => rwa [if_pos hwide]
    next => cases h
  next hop =>
    rw [if_neg hop]
    exact List.mem_cons_of_mem _ hj

/-- While an older result is in scope, so is all that was in scope with it. -/
theorem subset_scopeAfter_of_mem (h : id ∈ scopeAfter wide scope triples)
    (hid : ∀ t ∈ triples, id ≠ t.id) :
    id ∈ scope ∧ ∀ j ∈ scope, j ∈ scopeAfter wide scope triples := by
  induction triples generalizing scope with
  | nil => exact ⟨h, fun _ hj => hj⟩
  | cons t rest ih =>
    obtain ⟨hne, hid⟩ := List.forall_mem_cons.mp hid
    obtain ⟨hmem, hsubset⟩ := ih h hid
    have hscope : id ∈ scope := (mem_nextScope hmem).resolve_left hne
    refine ⟨hscope, fun j hj => hsubset j ?_⟩
    exact subset_nextScope_of_mem hmem j hj

/-- What a result in scope refers to is in scope as well. -/
theorem Orderly.refs_inScope (h : Orderly symbols wide scope widths triples) (ht : t ∈ triples)
    (hid : t.id ∈ scopeAfter wide scope triples) :
    ∀ j ∈ t.refs, j ∈ scopeAfter wide scope triples := by
  induction triples generalizing scope widths with
  | nil => cases ht
  | cons u rest ih =>
    rcases List.mem_cons.mp ht with rfl | ht
    · rw [scopeAfter] at hid ⊢
      obtain ⟨hmem, hsubset⟩ := subset_scopeAfter_of_mem hid h.ne_id
      intro j hj
      exact hsubset j (subset_nextScope_of_mem hmem j (h.inScope.1 j hj))
    · exact ih h.tail ht hid

/-- Marks on elements make no difference. -/
theorem similar_marked {addressOnly noSave : Bool} (h : t.WellFormed) :
    Similar symbols t { t with addressOnly, noSave } where
  id := rfl
  assign := Iff.rfl
  refs _ := fun h => h
  width := rfl
  resultWidth := rfl
  widthIn _ := rfl
  wellFormed := ⟨h.indexesVar, h.notFolded⟩
  pointer hpointer := ⟨hpointer, rfl⟩
  step _ := rfl

theorem scopeAfter_replace {t' : Triple} {xs ys : List Triple} (h : Similar symbols t t') :
    scopeAfter wide scope (xs ++ t' :: ys) = scopeAfter wide scope (xs ++ t :: ys) := by
  rw [scopeAfter_append, scopeAfter_append, scopeAfter, scopeAfter, nextScope, nextScope, h.id]
  simp only [h.assign]

end Triple

/-! ## Symbols -/

namespace SymbolTable

variable {symbols symbols' : SymbolTable} {name : String}

theorem contains_iff : symbols.contains name = true ↔ ∃ s, symbols.get? name = some s := by
  rw [contains, get?, ← Option.isSome_iff_exists, List.find?_isSome, List.any_eq_true]

/-- A symbol that may take the place of another one: it has its width, and arrays stay arrays. -/
def Refines (s s' : Symbol) : Prop :=
  s'.width = s.width ∧ (s.isArray = true → s'.isArray = true)

/-- Variables stay declared, at their width, and arrays stay arrays. -/
def Extends (symbols symbols' : SymbolTable) : Prop :=
  ∀ name s, symbols.get? name = some s → ∃ s', symbols'.get? name = some s' ∧ Refines s s'

/-- A variable that can be indexed. -/
def HasArray (symbols : SymbolTable) (name : String) : Prop :=
  ∃ s, symbols.get? name = some s ∧ s.isArray = true

theorem Extends.refl (symbols : SymbolTable) : symbols.Extends symbols :=
  fun _ s hs => ⟨s, hs, rfl, fun h => h⟩

theorem Extends.hasArray (h : symbols.Extends symbols') (hname : symbols.HasArray name) :
    symbols'.HasArray name := by
  obtain ⟨s, hs, harray⟩ := hname
  obtain ⟨s', hs', _, hkept⟩ := h name s hs
  exact ⟨s', hs', hkept harray⟩

theorem Extends.contains (h : symbols.Extends symbols') (hname : symbols.contains name = true) :
    symbols'.contains name = true := by
  obtain ⟨s, hs⟩ := contains_iff.mp hname
  obtain ⟨s', hs', _⟩ := h name s hs
  exact contains_iff.mpr ⟨s', hs'⟩

theorem Extends.widthOf (h : symbols.Extends symbols') (hname : symbols.contains name = true) :
    symbols'.widthOf name = symbols.widthOf name := by
  obtain ⟨s, hs⟩ := contains_iff.mp hname
  obtain ⟨s', hs', hwidth, _⟩ := h name s hs
  simp only [SymbolTable.widthOf, hs, hs', hwidth]

/-- A declaration adds a symbol and changes none. -/
theorem extends_declare? {s : Symbol} (h : symbols.declare? s = some symbols') :
    symbols.Extends symbols' := by
  intro name t ht
  simp only [declare?] at h
  split at h
  next => cases h
  next =>
    cases h
    rw [get?] at ht
    exact ⟨t, by simp [get?, List.find?_append, ht], rfl, fun h => h⟩

/-- So does a change that leaves the name and the width of a symbol as they are. -/
theorem extends_modify {f : Symbol → Symbol} (hname : ∀ s, (f s).name = s.name)
    (hf : ∀ s, Refines s (f s)) : symbols.Extends (symbols.modify name f hname) := by
  intro other s hs
  let g : Symbol → Symbol := fun s => if s.name = name then f s else s
  have hkept : ∀ s, (g s).name = s.name ∧ Refines s (g s) := by
    intro s
    dsimp only [g]
    split
    · exact ⟨hname s, hf s⟩
    · exact ⟨rfl, rfl, fun h => h⟩
  refine ⟨g s, ?_, (hkept s).2⟩
  have hcomp : ((fun s : Symbol => decide (s.name = other)) ∘ g) =
      fun s => decide (s.name = other) := by
    funext s
    simp [(hkept s).1]
  rw [get?] at hs
  rw [get?, modify, List.find?_map, hcomp, hs, Option.map_some]

theorem extends_setDimension {dimension : Nat} :
    symbols.Extends (symbols.setDimension name (some dimension)) :=
  extends_modify _ fun _ => ⟨rfl, fun _ => rfl⟩

theorem extends_withInitial {value : InitialValue} :
    symbols.Extends (symbols.withInitial name value) := by
  refine extends_modify _ fun s => ?_
  unfold Symbol.withInitial
  split
  · exact ⟨rfl, fun h => h⟩
  · exact ⟨rfl, fun _ => rfl⟩

end SymbolTable

/-! ## Steps on drafts -/

namespace Draft

open Triple (Orderly Similar scopeAfter widthsOf)

variable {wide : Bool} {d : Draft}

/-- The results in scope at the end of a draft. -/
def scope (wide : Bool) (d : Draft) : List Nat :=
  scopeAfter wide [] d.triples

/-- An operand may be used: a literal, a declared variable, or a result in scope. -/
def Usable (wide : Bool) (d : Draft) : Operand → Prop
  | .const _ => True
  | .var name => d.symbols.contains name = true
  | .temp n => n ∈ d.scope wide

/-- The triples of a draft are in good order. -/
structure Built (wide : Bool) (d : Draft) : Prop where
  orderly : Orderly d.symbols wide [] (widthsOf []) d.triples
  increasing : (d.triples.map Triple.id).Pairwise (· < ·)
  numbered : ∀ t ∈ d.triples, t.id < d.nextId
  declared : ∀ t ∈ d.triples, ∀ name, t.Names name → d.symbols.contains name = true
  arrays : ∀ t ∈ d.triples, t.op = .index → ∀ name, t.lhs = .var name → d.symbols.HasArray name

/-- So is the draft as a whole: every operand that waits may be used. -/
structure Valid (wide : Bool) (d : Draft) : Prop extends Built wide d where
  usable : ∀ o ∈ d.stack, d.Usable wide o

/-- What a step brings about. If it is rejected the draft is valid in the wide sense, provided it
was before. -/
def Drafts {α : Type} (wide : Bool) (x : Drafting α) (d : Draft) (Q : α → Draft → Prop) : Prop :=
  Ends x d Q fun d' => wide = true → Valid wide d'

theorem usable_of_scope {d' : Draft} {o : Operand} (h : d.Usable wide o)
    (hscope : ∀ id ∈ d.scope wide, id ∈ d'.scope wide) (hsymbols : d.symbols.Extends d'.symbols) :
    d'.Usable wide o := by
  cases o with
  | const => trivial
  | var => exact hsymbols.contains h
  | temp id => exact hscope id h

theorem valid_empty : Valid wide {} where
  orderly := ⟨trivial, trivial, List.forall_mem_nil _, List.nodup_nil, List.forall_mem_nil _⟩
  increasing := List.Pairwise.nil
  numbered := List.forall_mem_nil _
  declared := List.forall_mem_nil _
  arrays := List.forall_mem_nil _
  usable := List.forall_mem_nil _

theorem Built.symbols_extend {symbols : SymbolTable} (h : Built wide d)
    (hsymbols : d.symbols.Extends symbols) : Built wide { d with symbols } where
  orderly := h.orderly.congr_symbols fun t ht name hname =>
    hsymbols.widthOf (h.declared t ht name hname)
  increasing := h.increasing
  numbered := h.numbered
  declared t ht name hname := hsymbols.contains (h.declared t ht name hname)
  arrays t ht hop name hlhs := hsymbols.hasArray (h.arrays t ht hop name hlhs)

theorem Valid.symbols_extend {symbols : SymbolTable} (h : Valid wide d)
    (hsymbols : d.symbols.Extends symbols) : Valid wide { d with symbols } where
  toBuilt := h.toBuilt.symbols_extend hsymbols
  usable o ho := usable_of_scope (h.usable o ho) (fun _ hid => hid) hsymbols

theorem drafts_pushOperand {o : Operand} (h : Valid wide d) (ho : d.Usable wide o) :
    Drafts wide (pushOperand o) d fun _ d' => Valid wide d' := by
  simp only [Drafts, pushOperand, ends_modify]
  exact { h with usable := List.forall_mem_cons.mpr ⟨ho, h.usable⟩ }

/-- Taking an operand leaves a draft that may use it. -/
theorem drafts_popOperand {construct : Construct} (h : Valid wide d) :
    Drafts wide (popOperand construct) d fun o d' =>
      Valid wide d' ∧ d'.Usable wide o ∧ ∀ x, d.Usable wide x → d'.Usable wide x := by
  simp only [Drafts, popOperand, ends_bind, ends_get]
  split
  next => exact fun _ => h
  next o rest hstack =>
    simp only [ends_bind, ends_modify, ends_pure]
    have husable := h.usable
    rw [hstack] at husable
    obtain ⟨ho, hrest⟩ := List.forall_mem_cons.mp husable
    exact ⟨{ h with usable := hrest }, ho, fun _ hx => hx⟩

/-- The draft with one more triple. -/
def snoc (d : Draft) (t : Triple) : Draft :=
  { d with triples := d.triples ++ [t], nextId := d.nextId + 1 }

/-- A triple that may be appended. -/
structure Appendable (wide : Bool) (d : Draft) (t : Triple) : Prop where
  id : t.id = d.nextId
  width : t.width = t.derivedWidth d.triples d.symbols
  operands : ∀ o ∈ t.lhs :: t.rhs.toList, d.Usable wide o
  wellFormed : t.WellFormed
  arrays : t.op = .index → ∀ name, t.lhs = .var name → d.symbols.HasArray name

/-- A triple may be appended whose operands are usable: it has the next number, and its width is
derived from what is there. -/
theorem built_snoc {t : Triple} (h : Built wide d) (ht : d.Appendable wide t) :
    Built wide (d.snoc t) := by
  have hfresh : ∀ u ∈ d.triples, u.id < t.id := fun u hu => ht.id ▸ h.numbered u hu
  -- What holds of the old triples and of the new one holds of all.
  have hmem {P : Triple → Prop} (hold : ∀ u ∈ d.triples, P u) (hnew : P t) :
      ∀ u ∈ d.triples ++ [t], P u := by
    intro u hu
    rcases List.mem_append.mp hu with hu | hu
    · exact hold u hu
    · exact List.mem_singleton.mp hu ▸ hnew
  constructor
  · refine h.orderly.snoc ?_ ?_ ht.wellFormed (fun u hu => Nat.ne_of_lt (hfresh u hu))
      List.not_mem_nil
    · intro j hj
      obtain ⟨o, ho, htemp⟩ := List.mem_filterMap.mp hj
      have husable := ht.operands o ho
      cases o with
      | temp n =>
        cases htemp
        exact husable
      | _ => cases htemp
    · have hwidths : Triple.widthsAfter (widthsOf []) d.triples = widthsOf d.triples :=
        Triple.widthsAfter_eq h.orderly.nodup
      rw [ht.width, Triple.derivedWidth_eq, hwidths]
  · change ((d.triples ++ [t]).map Triple.id).Pairwise (· < ·)
    rw [List.map_append, List.pairwise_append]
    refine ⟨h.increasing, List.pairwise_singleton _ _, fun i hi j hj => ?_⟩
    obtain ⟨u, hu, rfl⟩ := List.mem_map.mp hi
    obtain rfl := List.mem_singleton.mp hj
    exact hfresh u hu
  · exact hmem (fun u hu => Nat.lt_succ_of_lt (h.numbered u hu)) (ht.id ▸ Nat.lt_succ_self _)
  · exact hmem h.declared fun name hname => ht.operands (.var name) hname
  · exact hmem h.arrays ht.arrays

/-- Unless the new triple ends the statement, what was usable stays usable, and so is its result. -/
theorem valid_snoc {t : Triple} (h : Valid wide d) (ht : d.Appendable wide t)
    (hop : t.op ≠ .assign) : Valid wide (d.snoc t) ∧ (d.snoc t).Usable wide (.temp t.id) := by
  have hscope : (d.snoc t).scope wide = t.id :: d.scope wide := by
    rw [scope, snoc, Triple.scopeAfter_append]
    exact Triple.nextScope_of_ne hop
  refine ⟨⟨built_snoc h.toBuilt ht, fun o ho => ?_⟩, ?_⟩
  · refine usable_of_scope (h.usable o ho) (fun j hj => ?_) (.refl _)
    rw [hscope]
    exact List.mem_cons_of_mem _ hj
  · rw [Usable, hscope]
    exact List.mem_cons_self

/-- In the wide sense what was usable stays usable in any case. -/
theorem valid_snoc_wide {t : Triple} (h : Valid true d) (ht : d.Appendable true t) :
    Valid true (d.snoc t) := by
  refine ⟨built_snoc h.toBuilt ht, fun o ho => usable_of_scope (h.usable o ho) (fun j hj => ?_)
    (.refl _)⟩
  rw [scope, snoc, Triple.scopeAfter_append]
  exact Triple.subset_scopeAfter hj

/-- Appending a triple does not fail. -/
theorem ends_append {lhs : Operand} {op : Op} {rhs : Option Operand} {throughPointer : Bool}
    {Q : Operand → Draft → Prop} {E : Draft → Prop}
    (h : ∀ t : Triple, t.id = d.nextId → t.width = t.derivedWidth d.triples d.symbols →
      t.lhs = lhs → t.op = op → t.rhs = rhs → t.addressOnly = false → Q (.temp t.id) (d.snoc t)) :
    Ends (append lhs op rhs throughPointer) d Q E := by
  simp only [append, ends_bind, ends_get, ends_set, ends_pure]
  let t : Triple := { id := d.nextId, lhs, op, rhs, throughPointer }
  exact h { t with width := t.derivedWidth d.triples d.symbols } rfl rfl rfl rfl rfl rfl

/-- A mark sets flags that only the selector looks at. -/
def IsMark (mark : Triple → Triple) : Prop :=
  ∀ t, ∃ addressOnly noSave, mark t = { t with addressOnly, noSave }

/-- Marking changes one triple at most. -/
theorem markElement_cases (triples : List Triple) (id : Nat) (mark : Triple → Triple) :
    markElement triples id mark = triples ∨
      ∃ xs t ys, triples = xs ++ t :: ys ∧ markElement triples id mark = xs ++ mark t :: ys := by
  induction triples with
  | nil => exact .inl rfl
  | cons t rest ih =>
    rw [markElement]
    split
    · split
      · exact .inr ⟨[], t, rest, rfl, rfl⟩
      · exact .inl rfl
    · rcases ih with ih | ⟨xs, u, ys, hrest, ih⟩
      · exact .inl (congrArg (t :: ·) ih)
      · exact .inr ⟨t :: xs, u, ys, congrArg (t :: ·) hrest, congrArg (t :: ·) ih⟩

/-- Marking a triple keeps the draft valid and its operands usable. -/
theorem valid_marked {mark : Triple → Triple} {xs ys : List Triple} {t : Triple}
    (hmark : IsMark mark) (h : Valid wide d) (htriples : d.triples = xs ++ t :: ys) :
    Valid wide { d with triples := xs ++ mark t :: ys } ∧
      ∀ o, d.Usable wide o → Usable wide { d with triples := xs ++ mark t :: ys } o := by
  obtain ⟨addressOnly, noSave, ht⟩ := hmark t
  have hmem : t ∈ d.triples := by simp [htriples]
  have hsimilar : Similar d.symbols t (mark t) := by
    rw [ht]
    exact Triple.similar_marked (h.orderly.wellFormed t hmem)
  have hscope : scope wide { d with triples := xs ++ mark t :: ys } = d.scope wide := by
    rw [scope, scope, htriples]
    exact Triple.scopeAfter_replace hsimilar
  have husable : ∀ o, d.Usable wide o →
      Usable wide { d with triples := xs ++ mark t :: ys } o := by
    intro o ho
    exact usable_of_scope ho (fun j hj => hscope ▸ hj) (.refl _)
  -- What holds of all triples and does not look at the marks still holds of all triples.
  have hkept {P : Triple → Prop} (hold : ∀ u ∈ d.triples, P u) (hnew : P t → P (mark t)) :
      ∀ u ∈ xs ++ mark t :: ys, P u := by
    rw [htriples, List.forall_mem_append, List.forall_mem_cons] at hold
    rw [List.forall_mem_append, List.forall_mem_cons]
    exact ⟨hold.1, hnew hold.2.1, hold.2.2⟩
  refine ⟨⟨⟨?_, ?_, ?_, ?_, ?_⟩, fun o ho => husable o (h.usable o ho)⟩, husable⟩
  · have horderly := h.orderly
    rw [htriples] at horderly
    exact horderly.replace hsimilar
  · have hincreasing := h.increasing
    rw [htriples] at hincreasing
    simpa [hsimilar.id] using hincreasing
  · exact hkept h.numbered fun hid => hsimilar.id ▸ hid
  · exact hkept h.declared fun hnames => ht ▸ hnames
  · exact hkept h.arrays fun harrays => ht ▸ harrays

/-- Marking what an operand refers to keeps the draft valid. -/
theorem drafts_markOperand {o : Operand} {mark : Triple → Triple} (hmark : IsMark mark)
    (h : Valid wide d) :
    Drafts wide (markOperand o mark) d fun _ d' =>
      Valid wide d' ∧ ∀ o, d.Usable wide o → d'.Usable wide o := by
  unfold markOperand
  split
  next id =>
    rw [Drafts, ends_modify]
    rcases markElement_cases d.triples id mark with hsame | ⟨xs, t, ys, htriples, hmarked⟩
    · rw [hsame]
      exact ⟨h, fun _ ho => ho⟩
    · rw [hmarked]
      exact valid_marked hmark h htriples
  next => exact ⟨h, fun _ ho => ho⟩

/-! ## Events -/

theorem drafts_declare {name : String} {width : Width} (h : Valid wide d) :
    Drafts wide (declare name width) d fun _ d' => Valid wide d' := by
  simp only [Drafts, declare, ends_bind, ends_get]
  split
  next symbols hsymbols => exact h.symbols_extend (SymbolTable.extends_declare? hsymbols)
  next => exact fun _ => h

/-- A variable is put on the stack only if it is declared. -/
theorem drafts_reference {name : String} (h : Valid wide d) :
    Drafts wide (reference name) d fun _ d' => Valid wide d' := by
  simp only [Drafts, reference, ends_bind, ends_get]
  split
  next hname => exact drafts_pushOperand h hname
  next => exact fun _ => h

/-- An initial value is given to declared variables only, and leaves names and widths as they
are. -/
theorem drafts_initial {name : String} {value : InitialValue} (h : Valid wide d) :
    Drafts wide (initial name value) d fun _ d' => Valid wide d' := by
  simp only [Drafts, initial, ends_bind, ends_get]
  split
  next => exact h.symbols_extend SymbolTable.extends_withInitial
  next => exact fun _ => h

/-- A sum or a difference of literals is folded. -/
theorem isConst_of_not_folded {op : Op} {lhs : Operand} {rhs : Option Operand}
    (hfolded : folded? op lhs rhs = none) (hop : op = .add ∨ op = .sub)
    (hlhs : lhs.isConst = true) : ∀ x, rhs = some x → x.isConst = false := by
  rintro x rfl
  cases lhs with
  | const a =>
    cases x with
    | const b =>
      rcases hop with rfl | rfl <;> simp [folded?, Op.fold?, Op.onWide?, Op.onBits?] at hfolded
    | _ => rfl
  | _ => cases hlhs

/-- A triple is appended and its result is left on the stack, for later events to use. -/
theorem drafts_append_push {lhs : Operand} {op : Op} {rhs : Option Operand} (h : Valid wide d)
    (hop : op ≠ .assign) (hlhs : d.Usable wide lhs) (hrhs : ∀ o, rhs = some o → d.Usable wide o)
    (hindex : op = .index → ∃ name, lhs = .var name ∧ d.symbols.HasArray name)
    (hfolded : op = .add ∨ op = .sub → lhs.isConst = true → ∀ x, rhs = some x → x.isConst = false) :
    Drafts wide (do pushOperand (← append lhs op rhs)) d fun _ d' => Valid wide d' := by
  rw [Drafts, ends_bind]
  refine ends_append fun t hid hwidth htlhs htop htrhs _ => ?_
  subst htlhs htop htrhs
  have hnew : d.Appendable wide t := by
    refine ⟨hid, hwidth, fun o ho => ?_, ⟨fun hop => ?_, hfolded⟩, fun hop name hlhs => ?_⟩
    · rcases List.mem_cons.mp ho with rfl | ho
      · exact hlhs
      · exact hrhs o (Option.mem_toList.mp ho)
    · obtain ⟨name, hname, _⟩ := hindex hop
      exact ⟨name, hname⟩
    · obtain ⟨name', hname, harray⟩ := hindex hop
      obtain rfl : name' = name := Operand.var.inj (hname.symm.trans hlhs)
      exact harray
  obtain ⟨hvalid, husable⟩ := valid_snoc h hnew hop
  exact drafts_pushOperand hvalid husable

/-- An operator takes its operands from the stack. They are folded, or they become those of a
triple, whose result is put in their place. -/
theorem drafts_operator {op : ExprOp} (h : Valid wide d) :
    Drafts wide (operator op.toOp) d fun _ d' => Valid wide d' := by
  have hassign : op.toOp ≠ .assign := by cases op <;> decide
  have hindex : op.toOp ≠ .index := by cases op <;> decide
  -- What can happen once the right operand, if there is one, has been taken.
  have hrest : ∀ rhs d₁, Valid wide d₁ → (∀ o, rhs = some o → d₁.Usable wide o) →
      Drafts wide (popOperand (.operator op.toOp)) d₁ fun lhs d₂ =>
        (∀ value, Drafts wide (pushOperand (.const value)) d₂ fun _ d' => Valid wide d') ∧
        (folded? op.toOp lhs rhs = none →
          Drafts wide (do pushOperand (← append lhs op.toOp rhs)) d₂ fun _ d' =>
            Valid wide d') := by
    intro rhs d₁ h₁ hrhs
    refine (drafts_popOperand h₁).mono ?_
    rintro lhs d₂ ⟨h₂, hlhs, hkept⟩
    refine ⟨fun _ => drafts_pushOperand h₂ trivial, fun hfolded => ?_⟩
    exact drafts_append_push h₂ hassign hlhs (fun o ho => hkept o (hrhs o ho))
      (fun hop => absurd hop hindex) (isConst_of_not_folded hfolded)
  simp only [Drafts, operator]
  split
  · simp only [ends_bind, ends_pure]
    refine (hrest none d h fun o ho => by cases ho).mono ?_
    rintro lhs d₂ ⟨hconst, happend⟩
    split
    next value _ => exact hconst value
    next hfolded => exact (ends_bind _ _).mpr ((ends_bind _ _).mp (happend hfolded))
  · simp only [ends_bind, ends_map]
    refine (drafts_popOperand h).mono ?_
    rintro rhs d₁ ⟨h₁, hrhs, _⟩
    refine (hrest (some rhs) d₁ h₁ fun o ho => Option.some.inj ho ▸ hrhs).mono ?_
    rintro lhs d₂ ⟨hconst, happend⟩
    split
    next value _ => exact hconst value
    next hfolded => exact (ends_bind _ _).mpr ((ends_bind _ _).mp (happend hfolded))

/-- An assignment ends a statement, and nothing waits any longer unless it is rejected. In the wide
sense the draft is valid even then, as the results stay in scope. -/
theorem drafts_assign {throughPointer : Bool} (h : Valid wide d) :
    Drafts wide (assign throughPointer) d fun _ d' => Valid wide d' := by
  simp only [Drafts, assign, ends_bind]
  refine (drafts_popOperand h).mono ?_
  rintro rhs d₁ ⟨h₁, hrhs, _⟩
  refine (drafts_popOperand h₁).mono ?_
  rintro lhs d₂ ⟨h₂, hlhs, hkept₂⟩
  refine (drafts_markOperand (fun t => ⟨_, _, rfl⟩) h₂).mono ?_
  rintro _ d₃ ⟨h₃, hkept₃⟩
  refine ends_append fun t hid hwidth htlhs htop htrhs _ => ?_
  -- Both operands were taken off the stack, and marking has not changed what is usable.
  have hnew : d₃.Appendable wide t := by
    refine ⟨hid, hwidth, fun o ho => ?_, ⟨fun hop => ?_, fun hop => ?_⟩, fun hop => ?_⟩
    · rw [htlhs, htrhs, Option.toList_some, List.mem_cons, List.mem_singleton] at ho
      rcases ho with rfl | rfl
      · exact hkept₃ _ hlhs
      · exact hkept₃ _ (hkept₂ _ hrhs)
    · simp [htop] at hop
    · simp [htop] at hop
    · simp [htop] at hop
  simp only [expectEmpty, ends_bind, ends_get]
  split
  next hstack =>
    exact (ends_pure _).mpr ⟨built_snoc h₃.toBuilt hnew, by simp [hstack]⟩
  next =>
    rw [ends_throw]
    rintro rfl
    exact valid_snoc_wide h₃ hnew

/-- The index takes a position and an array. At the literal position zero the array itself is put
back, and otherwise the element. -/
theorem drafts_index (h : Valid wide d) : Drafts wide index d fun _ d' => Valid wide d' := by
  simp only [Drafts, index, ends_bind]
  refine (drafts_popOperand h).mono ?_
  rintro position d₁ ⟨h₁, hposition, _⟩
  refine (drafts_popOperand h₁).mono ?_
  rintro base d₂ ⟨h₂, hbase, hkept⟩
  split
  next name =>
    have hpush (harray : d₂.symbols.HasArray name) :
        Drafts wide (if position = .const 0 then pushOperand (.var name)
          else do pushOperand (← append (.var name) .index (some position))) d₂
          fun _ d' => Valid wide d' := by
      refine ends_ite (fun _ => drafts_pushOperand h₂ hbase) fun _ => ?_
      refine drafts_append_push h₂ (by decide) hbase (fun o ho => ?_)
        (fun _ => ⟨name, rfl, harray⟩) (by simp)
      exact hkept o (Option.some.inj ho ▸ hposition)
    simp only [ends_bind, ends_get]
    refine ends_ite (fun _ _ => h₂) fun hindexable => hpush ?_
    cases hs : d₂.symbols.get? name with
    | none => simp [hs] at hindexable
    | some s => exact ⟨s, hs, by simpa [hs] using hindexable⟩
  next => exact fun _ => h₂

/-- A dimension makes an array of a declared variable. It has to be a positive literal, and what it
is rejected for leaves the draft valid as well. -/
theorem drafts_setDimension {name : String} (h : Valid wide d) :
    Drafts wide (setDimension name) d fun _ d' => Valid wide d' := by
  simp only [Drafts, setDimension, ends_bind]
  refine (drafts_popOperand h).mono ?_
  rintro o d₁ ⟨h₁, -⟩
  split
  next value =>
    refine ends_ite (fun _ _ => h₁) fun _ => ?_
    simp only [ends_bind, ends_get]
    refine ends_ite (fun _ => ?_) fun _ _ => h₁
    have hvalid : Valid wide { d₁ with
        symbols := d₁.symbols.setDimension name (some value.toNat) } :=
      h₁.symbols_extend SymbolTable.extends_setDimension
    simp only [ends_bind, ends_modify, expectEmpty, ends_get]
    split
    next => exact hvalid
    next => exact fun _ => hvalid
  next => exact fun _ => h₁

/-- The pointer behind a result in scope may be used again. -/
theorem usable_pointer {o pointer : Operand} (h : Valid wide d) (ho : d.Usable wide o)
    (hpointer : pointer? d.triples o = some pointer) : d.Usable wide pointer := by
  unfold pointer? at hpointer
  split at hpointer
  next id =>
    split at hpointer
    next t hfind =>
      split at hpointer
      next =>
        cases hpointer
        have hmem := List.mem_of_find?_eq_some hfind
        obtain rfl : t.id = id := by simpa using List.find?_some hfind
        have hrefs := h.orderly.refs_inScope hmem ho
        cases hlhs : t.lhs with
        | const => trivial
        | var name => exact h.declared t hmem name (by simp [Triple.Names, hlhs])
        | temp j => exact hrefs j (Triple.mem_refs.mpr (by simp [Triple.refersTo, hlhs]))
      next => cases hpointer
    next => cases hpointer
  next => cases hpointer

/-- The address of what was just followed is the pointer itself; of anything else it is a new
triple. -/
theorem drafts_addressOf (h : Valid wide d) :
    Drafts wide addressOf d fun _ d' => Valid wide d' := by
  simp only [Drafts, addressOf, ends_bind]
  refine (drafts_popOperand h).mono ?_
  rintro o d₁ ⟨h₁, ho, _⟩
  simp only [ends_get]
  split
  next pointer hpointer => exact drafts_pushOperand h₁ (usable_pointer h₁ ho hpointer)
  next =>
    rw [ends_bind]
    refine (drafts_markOperand (fun t => ⟨_, _, rfl⟩) h₁).mono ?_
    rintro _ d₂ ⟨h₂, hkept⟩
    exact drafts_append_push h₂ (by decide) (hkept o ho) (by simp) (by simp) (by simp)

theorem drafts_dereference (h : Valid wide d) :
    Drafts wide dereference d fun _ d' => Valid wide d' := by
  simp only [Drafts, dereference, ends_bind]
  refine (drafts_popOperand h).mono ?_
  rintro o d₁ ⟨h₁, ho, _⟩
  exact (ends_bind _ _).mp
    (drafts_append_push h₁ (by decide) ho (by simp) (by simp) (by simp))

/-- Every event keeps a draft valid. -/
theorem drafts_accept (event : Event) (h : Valid wide d) :
    Drafts wide (accept event) d fun _ d' => Valid wide d' := by
  cases event with
  | declare name width => exact drafts_declare h
  | reference name => exact drafts_reference h
  | literal value => exact drafts_pushOperand h trivial
  | initial name value => exact drafts_initial h
  | operator op => exact drafts_operator h
  | assign throughPointer => exact drafts_assign h
  | index => exact drafts_index h
  | setDimension name => exact drafts_setDimension h
  | addressOf => exact drafts_addressOf h
  | dereference => exact drafts_dereference h

/-- The draft of accepted events is valid. By induction on the events, from the empty draft on, as
every single one keeps a draft valid. -/
theorem valid_ofEvents {events : List Event} (h : ofEvents events = .ok d) : Valid false d := by
  have hall : ∀ events d, Valid false d →
      After (acceptAll events) d fun _ d' => Valid false d' := by
    intro events
    induction events with
    | nil => exact fun d h => (after_pure _).mpr h
    | cons event rest ih =>
      intro d h
      rw [acceptAll, after_bind]
      exact (drafts_accept event h).after.mono fun _ d' h' => ih d' h'
  unfold ofEvents at h
  split at h
  next d' haccepted =>
    cases h
    exact hall events {} valid_empty _ _ haccepted
  next => cases h

/-! ## Operators on the operands they take -/

theorem acceptAll_cons {d d' : Draft} {event : Event} {rest : List Event}
    (h : accept event d = .ok () d') : acceptAll (event :: rest) d = acceptAll rest d' :=
  bind_of_ok h

section

variable {op : Op} {lhs rhs : Operand} {stack : List Operand}

theorem popOperand_run (construct : Construct) (o : Operand) (stack : List Operand) :
    popOperand construct { d with stack := o :: stack } = .ok o { d with stack } :=
  rfl

/-- A right operand is taken from the top of the stack. -/
theorem takeRight_run (op : Op) (lhs rhs : Operand) (stack : List Operand) :
    (some <$> popOperand (.operator op)) { d with stack := rhs :: lhs :: stack } =
      .ok (some rhs) { d with stack := lhs :: stack } :=
  rfl

/-- Operands that fold leave a literal in their place. -/
theorem operator_folded {value : Int} (hop : op.isUnary = false)
    (hvalue : folded? op lhs (some rhs) = some value) :
    operator op { d with stack := rhs :: lhs :: stack } =
      .ok () { d with stack := .const value :: stack } := by
  rw [operator, hop, if_neg Bool.false_ne_true]
  refine (bind_of_ok (takeRight_run op lhs rhs stack)).trans ?_
  refine (bind_of_ok (popOperand_run (.operator op) lhs stack)).trans ?_
  simp only [hvalue]
  rfl

/-- Operands that do not fold become those of a triple. -/
theorem operator_appended (hop : op.isUnary = false) (hvalue : folded? op lhs (some rhs) = none) :
    operator op { d with stack := rhs :: lhs :: stack } =
      (append lhs op (some rhs) >>= pushOperand) { d with stack } := by
  rw [operator, hop, if_neg Bool.false_ne_true]
  refine (bind_of_ok (takeRight_run op lhs rhs stack)).trans ?_
  refine (bind_of_ok (popOperand_run (.operator op) lhs stack)).trans ?_
  simp only [hvalue]

end

/-- The draft after events of which some may have been rejected. -/
def afterEvents (d : Draft) (events : List Event) : Draft :=
  events.foldl (fun d event => (d.next event).2) d

/-- What holds of the draft after an event, accepted or not. -/
theorem next_of_ends {event : Event} {P : Draft → Prop} (h : Ends (accept event) d (fun _ => P) P) :
    P (d.next event).2 := by
  unfold Ends at h
  unfold next
  split
  next heq =>
    rw [heq] at h
    exact h
  next heq =>
    rw [heq] at h
    exact h

/-- A draft stays valid in the wide sense, whether an event is accepted or not. -/
theorem valid_next (event : Event) (h : Valid true d) : Valid true (d.next event).2 := by
  have haccept : Drafts true (accept event) d fun _ d' => Valid true d' := drafts_accept event h
  refine next_of_ends ?_
  simpa only [Drafts, true_imp_iff] using haccept

/-- The draft of any events is valid in the wide sense. -/
theorem valid_afterEvents (events : List Event) (h : Valid true d) :
    Valid true (d.afterEvents events) := by
  induction events generalizing d with
  | nil => exact h
  | cons event rest ih => exact ih (valid_next event h)

end Draft

end Accumulator
