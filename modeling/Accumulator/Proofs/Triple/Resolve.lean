import Accumulator.Proofs.Triple.Reduce

/-!
# What references mean after strength reduction

Strength reduction removes an addition of zero and renames every later reference to it. Here the
renaming is said without the pass: `resolve` follows a reference through additions of zero to what
is left of them, and `resolveAll` does so for all operands of a list. What the pass leaves is,
triple by triple, what `reduceOne` keeps of the resolved list (`reduceAll_eq`).
-/

namespace Accumulator.Triple

variable {symbols : SymbolTable} {wide : Bool} {scope : List Nat} {widths : Nat → Width}
  {t u : Triple} {earlier rest triples : List Triple} {o : Operand} {id : Nat}

/-- What is left of an addition or a subtraction of zero. -/
def remains? (t : Triple) : Option Operand :=
  match t.op, t.lhs, t.rhs with
  | .add, x, some (.const 0) => some x
  | .add, .const 0, some y => some y
  | .sub, x, some (.const 0) => some x
  | _, _, _ => none

/-- Follow a reference through additions of zero. The triples before it are given last one first. -/
def resolve : (earlier : List Triple) → Operand → Operand
  | [], o => o
  | t :: earlier, o =>
    if o = .temp t.id then
      match t.remains? with
      | some x => resolve earlier x
      | none => o
    else
      resolve earlier o

/-- Follow the references of all triples. -/
def resolveAll (earlier : List Triple) : List Triple → List Triple
  | [] => []
  | t :: rest => t.mapOperands (resolve earlier) :: resolveAll (t :: earlier) rest

/-- What strength reduction keeps of a triple. -/
def kept? (t : Triple) : Option Triple :=
  match t.reduceOne with
  | .identity _ | .selfAssign => none
  | .counted t' | .same t' => some t'

/-! ## Single triples -/

/-- The triple adds zero to an operand or subtracts zero from it. -/
def AddsZeroTo (t : Triple) (o : Operand) : Prop :=
  (t.op = .add ∨ t.op = .sub) ∧ t.lhs = o ∧ t.rhs = some (.const 0) ∨
    t.op = .add ∧ t.lhs = .const 0 ∧ t.rhs = some o

/-- What remains of an addition of zero is what zero is added to. -/
theorem remains?_eq_some_iff (hwell : t.WellFormed) : t.remains? = some o ↔ t.AddsZeroTo o := by
  constructor
  · intro h
    unfold remains? at h
    split at h
    next hop hrhs => exact .inl ⟨.inl hop, Option.some.inj h, hrhs⟩
    next hop hlhs hrhs => exact .inr ⟨hop, hlhs, hrhs.trans h⟩
    next hop hrhs => exact .inl ⟨.inr hop, Option.some.inj h, hrhs⟩
    next => cases h
  · rintro (⟨hop | hop, hlhs, hrhs⟩ | ⟨hop, hlhs, hrhs⟩)
    · simp [remains?, hop, hlhs, hrhs]
    · simp [remains?, hop, hlhs, hrhs]
    · have hconst := hwell.notFolded (.inl hop) (by simp [hlhs, Operand.isConst]) o hrhs
      have hne : o ≠ .const 0 := fun hzero => by simp [hzero, Operand.isConst] at hconst
      simp [remains?, hop, hlhs, hrhs]

theorem AddsZeroTo.mem (h : t.AddsZeroTo o) : o ∈ t.lhs :: t.rhs.toList := by
  rcases h with ⟨_, hlhs, _⟩ | ⟨_, _, hrhs⟩
  · simp [hlhs]
  · simp [hrhs]

theorem AddsZeroTo.not_const (h : t.AddsZeroTo o) (hwell : t.WellFormed) : o.isConst = false := by
  rcases h with ⟨hop, hlhs, hrhs⟩ | ⟨hop, hlhs, hrhs⟩
  · refine Bool.eq_false_iff.mpr fun hconst => ?_
    cases hwell.notFolded hop (hlhs ▸ hconst) _ hrhs
  · exact hwell.notFolded (.inl hop) (by simp [hlhs, Operand.isConst]) o hrhs

/-- The triple adds, subtracts or counts. -/
def IsSum (t : Triple) : Prop :=
  t.op = .add ∨ t.op = .sub ∨ t.op = .inc ∨ t.op = .dec

/-- How a triple is kept: as it is, or as another sum. -/
structure KeptAs (t t' : Triple) : Prop where
  id : t'.id = t.id
  same : t' = t ∨ t.IsSum ∧ t'.IsSum
  width : t'.width = t.width
  names : ∀ name, t'.Names name → t.Names name

/-- The result of a sum is as wide as the sum. -/
theorem IsSum.resultWidth (h : t.IsSum) : t.resultWidth = t.width := by
  rcases h with hop | hop | hop | hop <;>
    simp [Triple.resultWidth, hop, Op.isComparison, Op.relation?]

/-- What is kept of a triple has a result of the same width. -/
theorem KeptAs.resultWidth {t' : Triple} (h : t.KeptAs t') : t'.resultWidth = t.resultWidth := by
  rcases h.same with rfl | ⟨hsum, hsum'⟩
  · rfl
  · rw [hsum.resultWidth, hsum'.resultWidth, h.width]

/-- What becomes of a triple. -/
inductive Fate (t : Triple) : Prop where
  | identity (o : Operand) (hreduced : t.reduceOne = .identity o) (h : t.AddsZeroTo o)
  | selfAssign (hreduced : t.reduceOne = .selfAssign) (h : t.isSelfAssign = true)
  | kept (t' : Triple) (hreduced : t.reduceOne = .counted t' ∨ t.reduceOne = .same t')
      (hzero : ∀ o, ¬t.AddsZeroTo o) (hself : t.isSelfAssign = false) (h : t.KeptAs t')

theorem not_isSelfAssign (h : t.op ≠ .assign) : t.isSelfAssign = false := by
  simp [isSelfAssign, h]

/-- The fate of a sum with a literal on the right, which may have been turned around. -/
theorem fate_of_reduceConstant (t' : Triple) {op : Op} {n : Int} (hid : t'.id = t.id)
    (hwidth : t'.width = t.width)
    (hreduced : t.reduceOne = t'.reduceConstant op n) (hsum : t.op = .add ∨ t.op = .sub)
    (hsum' : t'.op = .add ∨ t'.op = .sub) (hcounts : op = .inc ∨ op = .dec)
    (hnames : ∀ name, t'.Names name → t.Names name)
    (hzero : ∀ o, t.AddsZeroTo o ↔ t'.lhs = o ∧ n = 0) : Fate t := by
  have hself : t.isSelfAssign = false := by
    refine not_isSelfAssign ?_
    rcases hsum with hop | hop <;> simp [hop]
  have hsums : ∀ {u : Triple}, u.op = .add ∨ u.op = .sub → u.IsSum := fun h =>
    h.elim .inl fun h => .inr (.inl h)
  unfold reduceConstant at hreduced
  split at hreduced
  next hn => exact .identity _ hreduced ((hzero _).mpr ⟨rfl, hn⟩)
  next hn =>
    have hnone : ∀ o, ¬t.AddsZeroTo o := fun o h => hn ((hzero o).mp h).2
    split at hreduced
    next =>
      refine .kept _ (.inl hreduced) hnone hself
        ⟨hid, .inr ⟨hsums hsum, .inr (.inr hcounts)⟩, hwidth, fun name hname => hnames name ?_⟩
      -- A count names nothing.
      have hcount : .var name ∉ (countOperand n).toList := by
        unfold countOperand
        split <;> simp
      rcases List.mem_cons.mp hname with hlhs | hrhs
      · exact List.mem_cons.mpr (.inl hlhs)
      · exact absurd hrhs hcount
    next =>
      exact .kept _ (.inr hreduced) hnone hself
        ⟨hid, .inr ⟨hsums hsum, hsums hsum'⟩, hwidth, hnames⟩

/-- An addition of a literal on the left is turned around. -/
theorem reduceOne_of_literal_left {c : Int} {y : Operand} (hop : t.op = .add)
    (hlhs : t.lhs = .const c) (hrhs : t.rhs = some y) (hy : y.isConst = false) :
    t.reduceOne = reduceConstant { t with lhs := y, rhs := some (.const c) } .inc c := by
  have hturned : t.literalRight = { t with lhs := y, rhs := some (.const c) } := by
    simp [literalRight, hop, hlhs, hrhs, hy]
  simp [reduceOne, hturned, hop]

/-- Without a literal on the left only, there is nothing to turn around. -/
theorem literalRight_eq_self (h : ∀ c y, t.op = .add → t.lhs = .const c → t.rhs = some y →
    y.isConst = true) : t.literalRight = t := by
  unfold literalRight
  split
  next c y hop hlhs hrhs => rw [if_pos (h c y hop hlhs hrhs)]
  next => rfl

/-- What becomes of a triple under strength reduction: it is dropped for its operand, dropped for
nothing, or kept. -/
theorem fate (hwell : t.WellFormed) : Fate t := by
  by_cases hturn : ∃ c y, t.op = .add ∧ t.lhs = .const c ∧ t.rhs = some y ∧ y.isConst = false
  · obtain ⟨c, y, hop, hlhs, hrhs, hy⟩ := hturn
    let t' : Triple := { t with lhs := y, rhs := some (.const c) }
    have hreduced : t.reduceOne = t'.reduceConstant .inc c :=
      reduceOne_of_literal_left hop hlhs hrhs hy
    have hnames : ∀ name, t'.Names name → t.Names name := by
      intro name hname
      simp_all [Names, t']
    refine fate_of_reduceConstant t' rfl rfl hreduced (.inl hop) (.inl hop) (.inl rfl) hnames
      fun o => ?_
    constructor
    · rintro (⟨_, _, hzero⟩ | ⟨_, hzero, ho⟩)
      · cases hrhs.symm.trans hzero
        cases hy
      · exact ⟨Option.some.inj (hrhs.symm.trans ho), Operand.const.inj (hlhs.symm.trans hzero)⟩
    · rintro ⟨ho, rfl⟩
      exact .inr ⟨hop, hlhs, hrhs.trans (congrArg some ho)⟩
  · have hself : t.literalRight = t := by
      refine literalRight_eq_self fun c y hop hlhs hrhs => ?_
      cases hy : y.isConst with
      | true => rfl
      | false => exact absurd ⟨c, y, hop, hlhs, hrhs, hy⟩ hturn
    -- Zero is added on the left to nothing but a literal, and such sums are folded.
    have hleft : ∀ o, ¬(t.op = .add ∧ t.lhs = .const 0 ∧ t.rhs = some o) := by
      rintro o ⟨hop, hlhs, hrhs⟩
      refine hturn ⟨0, o, hop, hlhs, hrhs, hwell.notFolded (.inl hop) ?_ o hrhs⟩
      simp [hlhs, Operand.isConst]
    have hzero : ∀ o, t.AddsZeroTo o ↔ (t.op = .add ∨ t.op = .sub) ∧ t.lhs = o ∧
        t.rhs = some (.const 0) := fun o => or_iff_left (hleft o)
    have hliteral : ∀ {n : Int} {op : Op}, t.rhs = some (.const n) → (t.op = .add ∨ t.op = .sub) →
        (op = .inc ∨ op = .dec) → t.reduceOne = t.reduceConstant op n → Fate t := by
      intro n op hrhs hop hcounts hreduced
      refine fate_of_reduceConstant t rfl rfl hreduced hop hop hcounts (fun _ h => h) fun o => ?_
      simp [hzero, hop, hrhs]
    by_cases hop : ∃ n, t.rhs = some (.const n) ∧ (t.op = .add ∨ t.op = .sub)
    · obtain ⟨n, hrhs, hop | hop⟩ := hop
      · exact hliteral hrhs (.inl hop) (.inl rfl) (by simp [reduceOne, hself, hop, hrhs])
      · exact hliteral hrhs (.inr hop) (.inr rfl) (by simp [reduceOne, hself, hop, hrhs])
    · have hreduced : t.reduceOne = if t.isSelfAssign then .selfAssign else .same t := by
        simp only [reduceOne, hself]
        split
        next n hadd hrhs => exact absurd ⟨n, hrhs, .inl hadd⟩ hop
        next n hsub hrhs => exact absurd ⟨n, hrhs, .inr hsub⟩ hop
        next => rfl
      cases hassign : t.isSelfAssign with
      | true => exact .selfAssign (by simp [hreduced, hassign]) hassign
      | false =>
        refine .kept t (.inr (by simp [hreduced, hassign])) (fun o h => hop ?_) hassign
          ⟨rfl, .inl rfl, rfl, fun _ h => h⟩
        obtain ⟨hsum, _, hrhs⟩ := (hzero o).mp h
        exact ⟨0, hrhs, hsum⟩

/-! ## Substitutions -/

variable {f : Operand → Operand}

/-- References are replaced by operands that are no literals. -/
theorem isConst_of_replaces (hf : Replaces f) (o : Operand) : (f o).isConst = o.isConst := by
  cases o with
  | const c => rw [hf.fixed (.const c) rfl]
  | var name => rw [hf.fixed (.var name) rfl]
  | temp j => exact hf.not_const j

/-- So a literal comes from a literal. -/
theorem eq_const_of_replaces (hf : Replaces f) (c : Int) : f o = .const c ↔ o = .const c := by
  cases o with
  | const => rw [hf.fixed _ rfl]
  | var => rw [hf.fixed _ rfl]
  | temp j =>
    have hconst := hf.not_const j
    constructor
    · intro h
      simp [h, Operand.isConst] at hconst
    · intro h
      cases h

/-- Replacing references keeps triples well formed. -/
theorem WellFormed.mapOperands (h : t.WellFormed) (hf : Replaces f) :
    (t.mapOperands f).WellFormed := by
  constructor
  · intro hop
    obtain ⟨name, hname⟩ := h.indexesVar hop
    exact ⟨name, by simp [Triple.mapOperands, hname, hf.fixed (.var name) rfl]⟩
  · intro hop hlhs x hx
    obtain ⟨y, hy, rfl⟩ := Option.map_eq_some_iff.mp hx
    rw [isConst_of_replaces hf]
    exact h.notFolded hop ((isConst_of_replaces hf _).symm.trans hlhs) y hy

/-- Replacing references does not make or break an addition of zero. -/
theorem addsZeroTo_mapOperands (hf : Replaces f) (o' : Operand) :
    (t.mapOperands f).AddsZeroTo o' ↔ ∃ o, t.AddsZeroTo o ∧ f o = o' := by
  have hrhs : (t.mapOperands f).rhs = some (.const 0) ↔ t.rhs = some (.const 0) := by
    simp only [Triple.mapOperands, Option.map_eq_some_iff, eq_const_of_replaces hf]
    constructor
    · rintro ⟨_, h, rfl⟩
      exact h
    · intro h
      exact ⟨_, h, rfl⟩
  have hlhs : (t.mapOperands f).lhs = .const 0 ↔ t.lhs = .const 0 := eq_const_of_replaces hf 0
  unfold AddsZeroTo
  rw [hrhs, hlhs]
  constructor
  · rintro (⟨hop, rfl, h⟩ | ⟨hop, h, ho⟩)
    · exact ⟨t.lhs, .inl ⟨hop, rfl, h⟩, rfl⟩
    · obtain ⟨o, hrhs, rfl⟩ := Option.map_eq_some_iff.mp ho
      exact ⟨o, .inr ⟨hop, h, hrhs⟩, rfl⟩
  · rintro ⟨o, ⟨hop, rfl, h⟩ | ⟨hop, h, ho⟩, rfl⟩
    · exact .inl ⟨hop, rfl, h⟩
    · exact .inr ⟨hop, h, by simp [Triple.mapOperands, ho]⟩

/-! ## Following references -/

/-- Following references replaces them by variables or by other references, never by literals: an
addition of zero to a literal would have been folded. -/
theorem replaces_resolve (hwell : ∀ u ∈ earlier, u.WellFormed) : Replaces (resolve earlier) := by
  induction earlier with
  | nil => exact replaces_id
  | cons t earlier ih =>
    obtain ⟨ht, hwell⟩ := List.forall_mem_cons.mp hwell
    have hearlier := ih hwell
    constructor
    · intro o ho
      rw [resolve, if_neg fun h => by simp [h, Operand.temp?] at ho]
      exact hearlier.fixed o ho
    · intro id
      rw [resolve]
      split
      · split
        next x hx =>
          rw [isConst_of_replaces hearlier]
          exact ((remains?_eq_some_iff ht).mp hx).not_const ht
        next => rfl
      · exact hearlier.not_const id

/-- A number that no triple has is not followed. -/
theorem resolve_temp_of_fresh (h : ∀ u ∈ earlier, u.id ≠ id) :
    resolve earlier (.temp id) = .temp id := by
  induction earlier with
  | nil => rfl
  | cons t earlier ih =>
    obtain ⟨ht, hearlier⟩ := List.forall_mem_cons.mp h
    rw [resolve, if_neg fun heq => ht (Operand.temp.inj heq).symm]
    exact ih hearlier

/-- A number that zero is not added to is not reached. -/
theorem eq_temp_of_resolve (hwell : ∀ u ∈ earlier, u.WellFormed)
    (hzero : ∀ u ∈ earlier, ¬u.AddsZeroTo (.temp id)) (h : resolve earlier o = .temp id) :
    o = .temp id := by
  induction earlier generalizing o with
  | nil => exact h
  | cons t earlier ih =>
    obtain ⟨ht, hwell⟩ := List.forall_mem_cons.mp hwell
    obtain ⟨hnot, hzero⟩ := List.forall_mem_cons.mp hzero
    rw [resolve] at h
    split at h
    next =>
      split at h
      next x hx =>
        -- The operand that is left would be a reference to the number.
        obtain rfl := ih hwell hzero h
        exact absurd ((remains?_eq_some_iff ht).mp hx) hnot
      next => exact h
    next => exact ih hwell hzero h

/-- References go to earlier triples of the list. -/
theorem mem_of_refs (h : Scoped wide scope triples) (ht : t ∈ triples) (hid : id ∈ t.refs) :
    id ∈ scope ∨ ∃ u ∈ triples, u.id = id := by
  induction triples generalizing scope with
  | nil => cases ht
  | cons u rest ih =>
    rcases List.mem_cons.mp ht with rfl | ht
    · exact .inl (h.1 id hid)
    · rcases ih h.2 ht with hscope | ⟨v, hv, hid⟩
      · rcases mem_nextScope hscope with rfl | hscope
        · exact .inr ⟨u, List.mem_cons_self, rfl⟩
        · exact .inl hscope
      · exact .inr ⟨v, List.mem_cons_of_mem _ hv, hid⟩

/-- Renaming references to an addition of zero after following those before it. -/
theorem resolve_cons_of_addsZero (hwell : ∀ u ∈ t :: earlier, u.WellFormed)
    (hfresh : ∀ u ∈ earlier, u.id ≠ t.id ∧ t.id ∉ u.refs) (hzero : t.AddsZeroTo o) (x : Operand) :
    resolve (t :: earlier) x =
      if resolve earlier x = .temp t.id then resolve earlier o else resolve earlier x := by
  obtain ⟨ht, hwell⟩ := List.forall_mem_cons.mp hwell
  have hiff : resolve earlier x = .temp t.id ↔ x = .temp t.id := by
    constructor
    · refine eq_temp_of_resolve hwell fun u hu hadds => (hfresh u hu).2 ?_
      exact mem_refs.mpr (refersTo_of_mem hadds.mem)
    · rintro rfl
      exact resolve_temp_of_fresh fun u hu => (hfresh u hu).1
  rw [resolve, (remains?_eq_some_iff ht).mpr hzero]
  simp only [hiff]

/-- A triple that does not add zero has no part in it. -/
theorem resolve_cons_of_not_addsZero (ht : t.WellFormed) (hfresh : ∀ u ∈ earlier, u.id ≠ t.id)
    (hzero : ∀ o, ¬t.AddsZeroTo o) (x : Operand) :
    resolve (t :: earlier) x = resolve earlier x := by
  have hnone : t.remains? = none := by
    cases h : t.remains? with
    | none => rfl
    | some o => exact absurd ((remains?_eq_some_iff ht).mp h) (hzero o)
  rw [resolve, hnone]
  split
  next hx => rw [hx, resolve_temp_of_fresh hfresh]
  next => rfl

/-! ## The whole pass -/

/-- What the pass leaves of triples whose references have been followed so far. By induction on the
list, with the triples that were gone through. -/
theorem reduceAll_resolved (h : Orderly symbols wide [] widths (earlier.reverse ++ rest)) :
    (reduceAll (rest.map (·.mapOperands (resolve earlier)))).triples =
      (resolveAll earlier rest).filterMap kept? := by
  induction rest generalizing earlier with
  | nil => simp [reduceAll, resolveAll]
  | cons t rest ih =>
    have hnext : Orderly symbols wide [] widths ((t :: earlier).reverse ++ rest) := by
      simpa using h
    have hwell : ∀ u ∈ t :: earlier, u.WellFormed := by
      intro u hu
      refine h.wellFormed u ?_
      rcases List.mem_cons.mp hu with rfl | hu <;> simp_all
    obtain ⟨ht, hearlier⟩ := List.forall_mem_cons.mp hwell
    have hfresh : ∀ u ∈ earlier, u.id ≠ t.id ∧ t.id ∉ u.refs := by
      have hids : ∀ u ∈ earlier, u.id ≠ t.id := by
        intro u hu
        have hnodup := h.nodup
        rw [List.map_append, List.nodup_append] at hnodup
        exact hnodup.2.2 _ (List.mem_map_of_mem (List.mem_reverse.mpr hu)) _ (by simp)
      refine fun u hu => ⟨hids u hu, fun hid => ?_⟩
      have hscoped := (scoped_append.mp h.inScope).1
      rcases mem_of_refs hscoped (List.mem_reverse.mpr hu) hid with hnil | ⟨v, hv, hid⟩
      · cases hnil
      · exact hids v (List.mem_reverse.mp hv) hid
    have hreplaces := replaces_resolve hearlier
    -- What has been followed so far is all that matters to the fate of the triple.
    have hzero := addsZeroTo_mapOperands (t := t) hreplaces
    rw [List.map_cons, reduceAll, resolveAll, List.filterMap_cons]
    cases fate (ht.mapOperands hreplaces) with
    | identity o hreduced hadds =>
      obtain ⟨x, hx, rfl⟩ := (hzero o).mp hadds
      have hrest : (rest.map (·.mapOperands (resolve earlier))).map
          (·.rename t.id (resolve earlier x)) =
            rest.map (·.mapOperands (resolve (t :: earlier))) := by
        rw [List.map_map]
        refine List.map_congr_left fun u _ => ?_
        have hnext : resolve (t :: earlier) = fun y =>
            if resolve earlier y = .temp t.id then resolve earlier x else resolve earlier y :=
          funext (resolve_cons_of_addsZero hwell hfresh hx)
        simp [Triple.rename, mapOperands, hnext, Function.comp_def]
      have hid : (t.mapOperands (resolve earlier)).id = t.id := rfl
      simp only [hreduced, kept?, hid, hrest]
      exact ih hnext
    | selfAssign hreduced hself =>
      have hrest := resolve_cons_of_not_addsZero ht (fun u hu => (hfresh u hu).1)
        fun o ho => ?_
      · simp only [hreduced, kept?]
        rw [← funext hrest]
        exact ih hnext
      · have hassign : t.op = .assign := by
          simp only [isSelfAssign, Bool.and_eq_true, decide_eq_true_eq] at hself
          exact hself.1.1.1
        rcases ho with ⟨hop | hop, _⟩ | ⟨hop, _⟩ <;> simp [hop] at hassign
    | kept t' hreduced hnone _ _ =>
      have hrest := resolve_cons_of_not_addsZero ht (fun u hu => (hfresh u hu).1)
        fun o ho => hnone _ ((hzero _).mpr ⟨o, ho, rfl⟩)
      rcases hreduced with hreduced | hreduced <;>
        · simp only [hreduced, kept?]
          rw [← funext hrest]
          exact congrArg _ (ih hnext)

/-- Strength reduction keeps what it can of every triple, with references followed. -/
theorem reduceAll_eq (h : Orderly symbols wide [] widths triples) :
    (reduceAll triples).triples = (resolveAll [] triples).filterMap kept? := by
  have hresolved : (reduceAll (triples.map (·.mapOperands (resolve [])))).triples =
      (resolveAll [] triples).filterMap kept? := reduceAll_resolved h
  have hid : (triples.map fun t : Triple => t.mapOperands (resolve [])) = triples :=
    (List.map_congr_left fun t _ => mapOperands_id t).trans (List.map_id triples)
  rwa [hid] at hresolved

end Accumulator.Triple
