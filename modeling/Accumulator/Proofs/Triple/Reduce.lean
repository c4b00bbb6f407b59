import Accumulator.Proofs.Triple.Scope

/-!
# Strength reduction keeps the meaning

The pass visits each triple once. It turns the triple around, counts instead of adding, drops an
addition of zero, or drops an assignment of a variable to itself. The first two give a triple that
does the same (`Similar`). Dropping an addition of zero renames every later reference to the
operand that was added to, which is the same value only because results fit their width (`Fits`)
and because nothing is assigned before the last such reference (`Orderly`).
-/

namespace Accumulator.Triple

variable {symbols : SymbolTable} {widths : Nat → Width} {scope : List Nat} {s s₁ : Store}
  {t : Triple} {o : Operand}

/-! ## Results fit -/

/-- The results in scope fit in their widths. -/
def Fits (scope : List Nat) (widths : Nat → Width) (s : Store) : Prop :=
  ∀ id ∈ scope, ∀ r, s.results id = some r → (widths id).narrow r.value = r.value

/-- The value of an operand in scope fits in its width. -/
theorem Fits.value? (h : Fits scope widths s) {v : Word} (hconst : o.isConst = false)
    (hscope : ∀ id, o = .temp id → id ∈ scope) (hv : o.value? symbols s = some v) :
    (o.widthIn symbols widths).narrow v = v := by
  cases o with
  | const => cases hconst
  | var name =>
    obtain ⟨p, hp, rfl⟩ := Option.map_eq_some_iff.mp hv
    rw [Operand.widthIn, ← SymbolTable.width_of_place? hp, p.narrow_read]
  | temp id =>
    obtain ⟨r, hr, rfl⟩ := Option.map_eq_some_iff.mp hv
    exact h id (hscope id rfl) r hr

/-- A result fits in the width of results. What is read from a place has the width of the place, and
an operation cuts its result off. -/
theorem narrow_result? {r : Result} (hwidth : t.width = t.widthIn symbols widths)
    (h : t.result? symbols s = some r) : t.resultWidth.narrow r.value = r.value := by
  cases hop : t.op with
  | assign => simp [result?, hop] at h
  | index | deref =>
    simp only [result?, hop] at h
    obtain ⟨p, hp, rfl⟩ := Option.map_eq_some_iff.mp h
    have hplace : p.width = t.resultWidth := by
      rcases source?_eq_some hp with ⟨name, index, v, _, hlhs, _, _, helement⟩ | ⟨a, _, _, rfl⟩
      · simp_all [resultWidth, widthIn, Op.isComparison, Op.relation?,
          SymbolTable.width_of_element? helement]
      · simp_all [resultWidth, widthIn, Op.isComparison, Op.relation?]
    rw [← hplace, p.narrow_read]
  | address =>
    have hword : t.resultWidth = .word := by simp [resultWidth, hop, Op.isComparison, Op.relation?]
    rw [hword, Width.narrow_word]
  | _ =>
    simp only [result?, hop, operation?, Option.bind_eq_bind, Option.map_eq_some_iff,
      Option.bind_eq_some_iff, Option.pure_def, Option.some.injEq] at h
    obtain ⟨_, ⟨_, _, _, _, rfl⟩, rfl⟩ := h
    exact Width.narrow_narrow _ _

/-- A step keeps it so: its result fits in the width of the triple. -/
theorem Fits.step (h : Fits scope widths s) (hwidth : t.width = t.widthIn symbols widths)
    (hstep : t.step symbols s = some s₁) :
    Fits (nextScope false scope t) (noteWidth widths t) s₁ := by
  rcases step_cases hstep with ⟨hop, _⟩ | ⟨hop, r, hr, rfl⟩
  · rw [nextScope_of_assign hop]
    exact List.forall_mem_nil _
  · rw [nextScope_of_ne hop]
    intro id hid r' hr'
    simp only [Store.record, noteWidth] at hr' ⊢
    split at hr'
    next heq =>
      cases hr'
      rw [if_pos heq]
      exact narrow_result? hwidth hr
    next hne =>
      rw [if_neg hne]
      exact h id ((List.mem_cons.mp hid).resolve_left hne) r' hr'

/-! ## Triples that do the same -/

/-- The value of a binary operation that is at work at its own width. -/
theorem operation?_of_operands {x y : Operand} {a b : Word} (hoperands : t.operands = [x, y])
    (hx : x.value? symbols s = some a) (hy : y.value? symbols s = some b) :
    t.operation? symbols s =
      (t.op.evaluate? (a.setWidth t.width.bits) (b.setWidth t.width.bits)).map fun v =>
        t.resultWidth.narrow (v.setWidth 16) := by
  simp only [operation?, hoperands, List.mapM_cons, List.mapM_nil, hx, hy, combine?,
    Option.bind_eq_bind, Option.bind_some, Option.pure_def]
  rw [Option.map_eq_bind]
  rfl

/-- An operation has no value if one of its operands has none. -/
theorem operation?_none {x : Operand} (hx : x ∈ t.operands) (hnone : x.value? symbols s = none) :
    t.operation? symbols s = none := by
  have hmapM : ∀ {xs : List Operand}, x ∈ xs → xs.mapM (·.value? symbols s) = none := by
    intro xs hmem
    induction xs with
    | nil => cases hmem
    | cons y ys ih =>
      rcases List.mem_cons.mp hmem with rfl | hmem
      · simp [List.mapM_cons, hnone]
      · simp [List.mapM_cons, ih hmem]
  simp [operation?, hmapM hx]

/-- Triples with the same number and the same result do the same. -/
theorem step_congr {t' : Triple} (hid : t'.id = t.id) (hop : t.op ≠ .assign)
    (hop' : t'.op ≠ .assign) (h : t'.result? symbols s = t.result? symbols s) :
    t'.step symbols s = t.step symbols s := by
  rw [step, step, if_neg hop, if_neg hop', h, hid]

/-- Turning an addition around changes nothing, as addition is commutative at any width. -/
theorem similar_literalRight (symbols : SymbolTable) (h : t.WellFormed) :
    Similar symbols t t.literalRight := by
  unfold literalRight
  split
  next c y hop hlhs hrhs =>
    split
    next => exact .refl h
    next hconst =>
      have hmax (x y : Width) : x.max y = y.max x := by cases x <;> cases y <;> rfl
      constructor
      · rfl
      · rfl
      · intro j hj
        simp_all [mem_refs, refersTo]
      · rfl
      · rfl
      · intro widths
        simp [Triple.widthIn, hop, hrhs, hmax]
      · exact ⟨fun h => by simp [hop] at h, fun _ h => by simp_all⟩
      · intro hpointer
        simp [followsPointer, hop] at hpointer
      · intro s
        obtain ⟨id, lhs, op, rhs, width⟩ := t
        cases hop
        cases hlhs
        cases hrhs
        -- Both have a value only if the other operand has one, and then the sums are equal.
        refine step_congr rfl (by simp) (by simp) (congrArg (Option.map _) ?_)
        cases hy : y.value? symbols s with
        | none =>
          rw [operation?_none (x := y) (by simp [operands]) hy,
            operation?_none (x := y) (by simp [operands]) hy]
        | some b =>
          have hc : (Operand.const c).value? symbols s = some (BitVec.ofInt 16 c) := rfl
          rw [operation?_of_operands rfl hy hc, operation?_of_operands rfl hc hy]
          simp only [Op.evaluate?, Op.onBits?, BitVec.add_comm]
          rfl
  next => exact .refl h

/-- Counting up or down by a small literal is adding or subtracting it. The count is stored as an
operand, or left out if it is one. -/
theorem similar_counted {n : Int} {op : Op} (h : t.WellFormed) (hrhs : t.rhs = some (.const n))
    (hop : t.op = .add ∧ op = .inc ∨ t.op = .sub ∧ op = .dec) (hn : 1 ≤ n ∧ n ≤ maxRepetitions) :
    Similar symbols t { t with op := op, rhs := countOperand n } := by
  have hmax (x : Width) : x.max .byte = x := by cases x <;> rfl
  have hsmall : n = 1 ∨ n = 2 ∨ n = 3 := by
    rw [maxRepetitions] at hn
    omega
  have hbyte : Width.ofConstant n = .byte := by rcases hsmall with rfl | rfl | rfl <;> rfl
  have hne : op ≠ .assign ∧ t.op ≠ .assign := by
    rcases hop with ⟨hop, rfl⟩ | ⟨hop, rfl⟩ <;> simp [hop]
  constructor
  · rfl
  · simp [hne.1, hne.2]
  · intro j hj
    simp only [mem_refs, refersTo, countOperand, hrhs] at hj ⊢
    split at hj <;> simpa using hj
  · rfl
  · rcases hop with ⟨hop, rfl⟩ | ⟨hop, rfl⟩ <;>
      simp [Triple.resultWidth, hop, Op.isComparison, Op.relation?]
  · intro widths
    rcases hop with ⟨hop, rfl⟩ | ⟨hop, rfl⟩ <;>
      simp [Triple.widthIn, hop, hrhs, Operand.widthIn, hbyte, hmax]
  · exact ⟨fun h => by rcases hop with ⟨_, rfl⟩ | ⟨_, rfl⟩ <;> simp at h,
      fun h => by rcases hop with ⟨_, rfl⟩ | ⟨_, rfl⟩ <;> simp at h⟩
  · rcases hop with ⟨_, rfl⟩ | ⟨_, rfl⟩ <;> simp [followsPointer]
  · intro s
    refine step_congr rfl hne.2 hne.1 ?_
    obtain ⟨id, lhs, op', rhs, width⟩ := t
    cases hrhs
    -- The literal is one, two or three, so it is the same number at either width.
    have hliteral : (BitVec.ofInt 16 n).setWidth width.bits =
        BitVec.ofNat width.bits (n % 4294967296).toNat := by
      rcases hsmall with rfl | rfl | rfl <;> cases width <;> rfl
    have hcount (t : Triple) (hop : t.op = .inc ∨ t.op = .dec) (hrhs : t.rhs = countOperand n) :
        t.repetitions = (n % 4294967296).toNat := by
      obtain ⟨id, lhs, op, rhs, width⟩ := t
      cases hrhs
      rcases hop with rfl | rfl <;> rcases hsmall with rfl | rfl | rfl <;> rfl
    rcases hop with ⟨hop, rfl⟩ | ⟨hop, rfl⟩ <;>
      · cases hop
        refine congrArg (Option.map _) ?_
        cases hx : lhs.value? symbols s with
        | none =>
          rw [operation?_none (x := lhs) (by simp [operands]) hx,
            operation?_none (x := lhs) (by simp [operands]) hx]
        | some a =>
          have hn : (Operand.const n).value? symbols s = some (BitVec.ofInt 16 n) := rfl
          refine Eq.trans ?_ (operation?_of_operands rfl hx hn).symm
          simp [operation?, operands, hx, combine?, hcount, Op.evaluate?, Op.onBits?, hliteral]
          rfl

/-! ## One triple -/

/-- The triple adds or subtracts zero. -/
structure AddsZero (t : Triple) : Prop where
  op : t.op = .add ∨ t.op = .sub
  rhs : t.rhs = some (.const 0)
  lhs : t.lhs.isConst = false

/-- What a triple can become. -/
inductive ReducedTo (symbols : SymbolTable) (t : Triple) : Reduced → Prop where
  | identity {t' : Triple} (h : Similar symbols t t') (hzero : t'.AddsZero) :
      ReducedTo symbols t (.identity t'.lhs)
  | selfAssign {t' : Triple} (h : Similar symbols t t') (hself : t'.isSelfAssign = true) :
      ReducedTo symbols t .selfAssign
  | counted {t' : Triple} (h : Similar symbols t t') : ReducedTo symbols t (.counted t')
  | same {t' : Triple} (h : Similar symbols t t') : ReducedTo symbols t (.same t')

/-- A sum or difference with a literal is left out, counted or kept, and each of these is right. -/
theorem reducedTo_reduceConstant {t' : Triple} {op : Op} {n : Int} (h : Similar symbols t t')
    (hrhs : t'.rhs = some (.const n)) (hop : t'.op = .add ∧ op = .inc ∨ t'.op = .sub ∧ op = .dec) :
    ReducedTo symbols t (t'.reduceConstant op n) := by
  unfold reduceConstant
  split
  next hn =>
    subst hn
    have haddsub : t'.op = .add ∨ t'.op = .sub := hop.imp And.left And.left
    refine .identity h ⟨haddsub, hrhs, Bool.eq_false_iff.mpr fun hconst => ?_⟩
    cases h.wellFormed.notFolded haddsub hconst _ hrhs
  next =>
    split
    next hn => exact .counted (h.trans (similar_counted h.wellFormed hrhs hop hn))
    next => exact .same h

/-- What becomes of a triple is right, by cases on what the pass looks for. -/
theorem reducedTo_reduceOne (symbols : SymbolTable) (h : t.WellFormed) :
    ReducedTo symbols t t.reduceOne := by
  have hsimilar := similar_literalRight symbols h
  dsimp only [reduceOne]
  split
  next n hop hrhs => exact reducedTo_reduceConstant hsimilar hrhs (.inl ⟨hop, rfl⟩)
  next n hop hrhs => exact reducedTo_reduceConstant hsimilar hrhs (.inr ⟨hop, rfl⟩)
  next =>
    split
    next hself => exact .selfAssign hsimilar hself
    next => exact .same hsimilar

theorem AddsZero.ne_assign (h : t.AddsZero) : t.op ≠ .assign := by
  rcases h.op with hop | hop <;> simp [hop]

theorem AddsZero.resultWidth (h : t.AddsZero) : t.resultWidth = t.width := by
  rcases h.op with hop | hop <;> simp [Triple.resultWidth, hop, Op.isComparison, Op.relation?]

/-- Adding zero does not make anything wider. -/
theorem AddsZero.width (h : t.AddsZero) (hwidth : t.width = t.widthIn symbols widths) :
    t.width = t.lhs.widthIn symbols widths := by
  have hmax (x : Width) : x.max .byte = x := by cases x <;> rfl
  have hbyte : Width.ofConstant 0 = .byte := rfl
  rcases h.op with hop | hop <;>
    simpa [Triple.widthIn, hop, h.rhs, Operand.widthIn, hbyte, hmax] using hwidth

/-- Adding zero leaves the value of the operand, and no place. The operand is as wide as the sum, so
cutting it to that width changes nothing. -/
theorem AddsZero.result? {r : Result} (h : t.AddsZero) (hwidth : t.width = t.widthIn symbols widths)
    (hfits : Fits scope widths s) (hscope : ∀ j ∈ t.refs, j ∈ scope)
    (hr : t.result? symbols s = some r) :
    t.lhs.value? symbols s = some r.value ∧ r.place = none := by
  have hoperands : t.operands = [t.lhs, .const 0] := by
    rcases h.op with hop | hop <;> simp [operands, hop, h.rhs]
  have hoperation : t.result? symbols s = (t.operation? symbols s).map fun value => { value } := by
    rcases h.op with hop | hop <;> simp only [Triple.result?, hop]
  rw [hoperation] at hr
  obtain ⟨v, hv, rfl⟩ := Option.map_eq_some_iff.mp hr
  refine ⟨?_, rfl⟩
  cases ha : t.lhs.value? symbols s with
  | none =>
    rw [operation?_none (x := t.lhs) (by simp [hoperands]) ha] at hv
    cases hv
  | some a =>
    have hzero : (Operand.const 0).value? symbols s = some 0 := rfl
    have hoperand : t.op.evaluate? (a.setWidth t.width.bits)
        (BitVec.setWidth t.width.bits (0 : Word)) = some (a.setWidth t.width.bits) := by
      rcases h.op with hop | hop <;> simp [hop, Op.evaluate?, Op.onBits?]
    rw [operation?_of_operands hoperands ha hzero, hoperand, Option.map_some, h.resultWidth] at hv
    -- The sum is as wide as its operand, whose value fits.
    have hnarrow : t.width.narrow a = a := by
      rw [h.width hwidth]
      exact hfits.value? h.lhs (fun j hj => hscope j (mem_refs.mpr (by simp [refersTo, hj]))) ha
    have hvalue : t.width.narrow (t.width.narrow a) = v := Option.some.inj hv
    rw [← hvalue, hnarrow, hnarrow]

/-- Assigning a variable to itself does nothing: as much of it is written as was read. -/
theorem step_of_isSelfAssign (h : t.isSelfAssign = true)
    (hwidth : t.width = t.widthIn symbols widths) (hstep : t.step symbols s = some s₁) :
    s₁ = s := by
  simp only [isSelfAssign, Bool.and_eq_true, decide_eq_true_eq, Bool.not_eq_true'] at h
  obtain ⟨⟨⟨hop, hthrough⟩, hvar⟩, hrhs⟩ := h
  obtain ⟨name, hlhs⟩ : ∃ name, t.lhs = .var name := by
    cases hlhs : t.lhs <;> simp_all [Operand.var?]
  rcases step_cases hstep with ⟨_, memory, hmemory, rfl⟩ | ⟨hne, _⟩
  · simp only [assigned?, hrhs, hlhs, target?, hthrough, Operand.value?, Operand.place?,
      Option.bind_eq_bind, Option.bind_some, Option.bind_eq_some_iff, Option.map_eq_some_iff,
      Bool.false_eq_true, if_false, Option.pure_def, Option.some.injEq] at hmemory
    obtain ⟨_, ⟨p, hp, rfl⟩, q, hq, rfl⟩ := hmemory
    obtain rfl : p = q := Option.some.inj (hp.symm.trans hq)
    have hwidth : t.width = p.width := by
      have hmax (x : Width) : x.max x = x := by cases x <;> rfl
      rw [hwidth, SymbolTable.width_of_place? hp]
      simp [Triple.widthIn, hop, hthrough, hrhs, hlhs, Operand.widthIn, hmax]
    rw [hwidth, p.narrow_read, p.write_read]
  · exact absurd hop hne

/-! ## The whole pass -/

variable {triples : List Triple}

/-- The pass goes through the list once, renaming what is left when a triple is removed. -/
theorem reduceAll_induction {P : List Triple → List Triple → Prop} (hnil : P [] [])
    (hidentity : ∀ {t : Triple} {o : Operand} {rest after : List Triple},
      t.reduceOne = .identity o → P (rest.map (·.rename t.id o)) after → P (t :: rest) after)
    (hself : ∀ {t : Triple} {rest after : List Triple},
      t.reduceOne = .selfAssign → P rest after → P (t :: rest) after)
    (hkept : ∀ {t t' : Triple} {rest after : List Triple},
      t.reduceOne = .counted t' ∨ t.reduceOne = .same t' → P rest after →
        P (t :: rest) (t' :: after))
    (triples : List Triple) : P triples (reduceAll triples).triples := by
  induction hn : triples.length using Nat.strongRecOn generalizing triples with
  | ind n ih =>
    cases triples with
    | nil => simpa [reduceAll] using hnil
    | cons t rest =>
      have hlt : rest.length < n := by simp [← hn]
      rw [reduceAll]
      cases h : t.reduceOne with
      | identity o => exact hidentity h (ih _ (by simpa using hlt) _ (by simp))
      | selfAssign => exact hself h (ih _ hlt _ rfl)
      | counted t' => exact hkept (.inl h) (ih _ hlt _ rfl)
      | same t' => exact hkept (.inr h) (ih _ hlt _ rfl)

/-- A triple that is taken away for its operand adds zero to it. -/
theorem addsZero_of_reduceOne (symbols : SymbolTable) (h : t.WellFormed)
    (hreduced : t.reduceOne = .identity o) :
    ∃ t', Similar symbols t t' ∧ t'.AddsZero ∧ o = t'.lhs := by
  have hreduces := reducedTo_reduceOne symbols h
  rw [hreduced] at hreduces
  cases hreduces with
  | identity hsimilar hzero => exact ⟨_, hsimilar, hzero, rfl⟩

/-- A triple that is taken away for nothing assigns a variable to itself. -/
theorem selfAssign_of_reduceOne (symbols : SymbolTable) (h : t.WellFormed)
    (hreduced : t.reduceOne = .selfAssign) :
    ∃ t', Similar symbols t t' ∧ t'.isSelfAssign = true := by
  have hreduces := reducedTo_reduceOne symbols h
  rw [hreduced] at hreduces
  cases hreduces with
  | selfAssign hsimilar hself => exact ⟨_, hsimilar, hself⟩

/-- A triple that is kept does the same in its new form. -/
theorem similar_of_kept (symbols : SymbolTable) {t' : Triple} (h : t.WellFormed)
    (hkept : t.reduceOne = .counted t' ∨ t.reduceOne = .same t') : Similar symbols t t' := by
  have hreduces := reducedTo_reduceOne symbols h
  rcases hkept with hkept | hkept <;>
    · rw [hkept] at hreduces
      cases hreduces
      assumption

/-- A triple that adds zero can be left out. -/
theorem Orderly.rename_survivor {wide : Bool} {rest : List Triple} {survivor : Operand}
    (h : Orderly symbols wide scope widths (t :: rest))
    (hreduced : t.reduceOne = .identity survivor) :
    Orderly symbols wide scope widths (rest.map (·.rename t.id survivor)) := by
  obtain ⟨t', hsimilar, hzero, rfl⟩ := addsZero_of_reduceOne symbols
    (h.wellFormed t List.mem_cons_self) hreduced
  have hop : t.op ≠ .assign := fun hop => hzero.ne_assign (hsimilar.assign.mpr hop)
  have hwidth : t'.width = t'.widthIn symbols widths := by
    rw [hsimilar.width, hsimilar.widthIn, h.typed.1]
  refine h.rename hop hzero.lhs (fun j hj => h.inScope.1 j (hsimilar.refs j ?_)) ?_
  · exact mem_refs.mpr (by simp [refersTo, hj])
  · rw [← hzero.width hwidth, ← hzero.resultWidth, hsimilar.resultWidth]

/-- Strength reduction keeps triples in order, and takes none from another place. By the cases of
its induction: a result replaced by an operand, an assignment dropped, a triple kept. -/
theorem orderly_reduceAll {wide : Bool} (h : Orderly symbols wide scope widths triples) :
    Orderly symbols wide scope widths (reduceAll triples).triples ∧
      List.Sublist ((reduceAll triples).triples.map Triple.id) (triples.map Triple.id) := by
  refine reduceAll_induction
    (P := fun triples after => ∀ scope widths, Orderly symbols wide scope widths triples →
      Orderly symbols wide scope widths after ∧
        List.Sublist (after.map Triple.id) (triples.map Triple.id))
    ?_ ?_ ?_ ?_ triples scope widths h
  · intro scope widths h
    exact ⟨h, List.Sublist.refl _⟩
  · intro t o rest after hreduced ih scope widths h
    obtain ⟨hafter, hsublist⟩ := ih scope widths (h.rename_survivor hreduced)
    rw [List.map_map] at hsublist
    exact ⟨hafter, hsublist.trans (List.sublist_cons_self _ _)⟩
  · intro t rest after hreduced ih scope widths h
    obtain ⟨hafter, hsublist⟩ := ih _ _ h.tail
    have hids : List.Sublist (after.map Triple.id) ((t :: rest).map Triple.id) :=
      hsublist.trans (List.sublist_cons_self t.id _)
    obtain ⟨t', hsimilar, hself⟩ := selfAssign_of_reduceOne symbols
      (h.wellFormed t List.mem_cons_self) hreduced
    have hassign : t.op = .assign := by
      simp only [isSelfAssign, Bool.and_eq_true, decide_eq_true_eq] at hself
      exact hsimilar.assign.mp hself.1.1.1
    -- An assignment leaves no result, so what follows refers to what was in scope before it.
    have hscope : ∀ j ∈ nextScope wide scope t, j ∈ scope := by
      intro j hj
      rw [nextScope, if_pos hassign] at hj
      split at hj
      next => exact hj
      next => cases hj
    have hwidths : ∀ j ∈ nextScope wide scope t, widths j = noteWidth widths t j := by
      intro j hj
      have hne : j ≠ t.id := fun hid => h.fresh t List.mem_cons_self (hid ▸ hscope j hj)
      exact (if_neg hne).symm
    exact ⟨⟨hafter.inScope.mono (fun h => h) hscope, hafter.typed.congr hafter.inScope hwidths,
      hafter.wellFormed, hafter.nodup, h.fresh_of_sublist hids⟩, hids⟩
  · intro t t' rest after hreduced ih scope widths h
    obtain ⟨hafter, hsublist⟩ := ih _ _ h.tail
    have hsimilar := similar_of_kept symbols (h.wellFormed t List.mem_cons_self) hreduced
    exact h.cons_similar hsimilar hafter hsublist

/-- The widths that are derived again are those that are there. -/
theorem reduce_eq {wide : Bool} (h : Orderly symbols wide [] (widthsOf []) triples) :
    (reduce symbols triples).1 = (reduceAll triples).triples := by
  have hreduced := (orderly_reduceAll h).1
  unfold reduce
  dsimp only
  split
  · exact deriveWidths_eq_self hreduced.typed hreduced.nodup
  · rfl

/-- Strength reduction leaves the final memory alone. By induction along the pass: a triple that
adds zero is dropped and its operand stands for it in the rest, one that assigns a variable to
itself is dropped, and any other is replaced by a similar one. -/
theorem Runs.reduceAll {guard : Store → Triple → Prop} (hsimilar : Tolerates symbols guard)
    (hrename : ∀ id o, Survives symbols guard id o (StandsFor symbols id o))
    (h : Orderly symbols false scope widths triples) (hfits : Fits scope widths s)
    (hruns : Runs symbols guard triples s s₁) :
    ∃ s₁', Runs symbols guard (Triple.reduceAll triples).triples s s₁' ∧
      s₁'.memory = s₁.memory := by
  refine reduceAll_induction
    (P := fun triples after => ∀ scope widths s s₁, Orderly symbols false scope widths triples →
      Fits scope widths s → Runs symbols guard triples s s₁ →
        ∃ s₁', Runs symbols guard after s s₁' ∧ s₁'.memory = s₁.memory)
    ?_ ?_ ?_ ?_ triples scope widths s s₁ h hfits hruns
  · intro scope widths s s₁ h hfits hruns
    exact ⟨s₁, hruns, rfl⟩
  · intro t o rest after hreduced ih scope widths s s₁ h hfits hruns
    obtain _ | ⟨-, hstep, hruns⟩ := hruns
    obtain ⟨t', hsimilar, hzero, rfl⟩ := addsZero_of_reduceOne symbols
      (h.wellFormed t List.mem_cons_self) hreduced
    have hwidth : t'.width = t'.widthIn symbols widths := by
      rw [hsimilar.width, hsimilar.widthIn, h.typed.1]
    have hscope : ∀ j ∈ t'.refs, j ∈ scope := fun j hj => h.inScope.1 j (hsimilar.refs j hj)
    rw [← hsimilar.step] at hstep
    rcases step_cases hstep with ⟨hop, _⟩ | ⟨_, r, hr, rfl⟩
    · exact absurd hop hzero.ne_assign
    obtain ⟨hvalue, hplace⟩ := hzero.result? hwidth hfits hscope hr
    rw [hsimilar.id] at hruns
    have hsame : SameExcept t.id (s.record t.id r) s := ⟨rfl, fun j hj => (if_neg hj).symm⟩
    -- The result of the sum is the value of its operand, which therefore stands for it from here
    -- on.
    have hstands : StandsFor symbols t.id t'.lhs (s.record t.id r) s := by
      have hresult : (s.record t.id r).results t.id = some r := if_pos rfl
      constructor
      · intro r' hr'
        obtain rfl : r = r' := Option.some.inj (hresult.symm.trans hr')
        exact hvalue
      · intro r' p hr' hp
        obtain rfl : r = r' := Option.some.inj (hresult.symm.trans hr')
        rw [hplace] at hp
        cases hp
    have hfresh : ∀ u ∈ rest, t.id ≠ u.id ∧ t'.lhs ≠ .temp u.id := fun u hu =>
      ⟨h.ne_id u hu, fun hlhs => h.fresh u (List.mem_cons_of_mem _ hu)
        (hscope _ (mem_refs.mpr (by simp [refersTo, hlhs])))⟩
    obtain ⟨s₂', hruns', hmemory⟩ := hruns.rename hzero.lhs hfresh
      (reaches_of_scoped h.tail.inScope h.ne_id) lasting_standsFor (hrename _ _) hsame
        (.inl hstands)
    obtain ⟨s₁', hfinal, hmemory'⟩ :=
      ih scope widths s s₂' (h.rename_survivor hreduced) hfits hruns'
    exact ⟨s₁', hfinal, hmemory'.trans hmemory⟩
  · intro t rest after hreduced ih scope widths s s₁ h hfits hruns
    obtain _ | ⟨-, hstep, hruns⟩ := hruns
    obtain ⟨t', hsimilar, hself⟩ := selfAssign_of_reduceOne symbols
      (h.wellFormed t List.mem_cons_self) hreduced
    have hwidth : t'.width = t'.widthIn symbols widths := by
      rw [hsimilar.width, hsimilar.widthIn, h.typed.1]
    have hsame := step_of_isSelfAssign hself hwidth ((hsimilar.step s).trans hstep)
    rw [← hsame]
    exact ih _ _ _ s₁ h.tail (hfits.step h.typed.1 hstep) hruns
  · intro t t' rest after hreduced ih scope widths s s₁ h hfits hruns
    obtain _ | ⟨hguard, hstep, hruns⟩ := hruns
    have hkept := similar_of_kept symbols (h.wellFormed t List.mem_cons_self) hreduced
    obtain ⟨s₁', hruns', hmemory⟩ := ih _ _ _ s₁ h.tail (hfits.step h.typed.1 hstep) hruns
    exact ⟨s₁', .cons (hsimilar _ _ _ hkept hguard) ((hkept.step s).trans hstep) hruns', hmemory⟩

end Accumulator.Triple
