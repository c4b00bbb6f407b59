import Accumulator.Proofs.Select.Operand

/-!
# A single operation

An operation on variables and literals, selected with nothing in the registers. It always succeeds,
and its result is where the record says: a byte in the accumulator, a word in HL.
-/

namespace Accumulator.Select

open Machine RegisterFile

variable {data : Word → Prop} {quiet : Bool} {s : State} {regs : RegisterFile} {m m' : Machine}
  {symbols : SymbolTable} {memory : Memory} {o o' : Operand} {x y : Word} {t : Triple}

/-! ## Two bytes -/

/-- If the record says that HL points at a variable, it does. -/
def Points (symbols : SymbolTable) (regs : RegisterFile) (rs : Registers Byte) : Prop :=
  ∀ name place, symbols.place? name = some place →
    regs.get .h = .half (.addr (.var name)) .high → rs.h ++ rs.l = place.address

/-- If nothing is recorded of HL, nothing is claimed about where it points. -/
theorem points_of_get_h {rs : Registers Byte} (h : regs.get .h = .empty) :
    Points symbols regs rs := by
  intro name place _ hget
  rw [h] at hget
  cases hget

/-- HL is loaded with the address of a variable and recorded with it. -/
theorem points_bindPair {rs : Registers Byte} {name : String} {place : Place}
    (hplace : symbols.place? name = some place) (hhl : rs.h ++ rs.l = place.address) :
    Points symbols (regs.bindPair .h (.addr (.var name))) rs := by
  intro name' place' hplace' hget
  rw [(get_bindPair (p := .h) rfl).1] at hget
  cases hget
  rw [hhl, Option.some.inj (hplace.symm.trans hplace')]

/-- The byte that a second operand stands for, known from the registers and from memory. -/
def Source.Names (symbols : SymbolTable) (memory : Memory) (b : Byte) (rs : Registers Byte) :
    Source → Prop
  | .imm value => value = b
  | .reg .m => ∃ name place, symbols.place? name = some place ∧ rs.h ++ rs.l = place.address ∧
      (place.read memory).setWidth 8 = b
  | .reg r => rs.get r = b

/-- What a source names is what the instruction reads, and it reads within the data. -/
theorem Source.Names.value {source : Source} {b : Byte} (h : Provides data symbols memory m)
    (hnames : source.Names symbols memory b m.registers) :
    source.value m = b ∧ source.Within data m := by
  cases source with
  | imm value => exact ⟨hnames, trivial⟩
  | reg r =>
    cases r with
    | m =>
      obtain ⟨name, place, hplace, hhl, rfl⟩ := hnames
      obtain ⟨hdata, hlow⟩ := h.low hplace
      have hhl : m.hl = place.address := hhl
      refine ⟨?_, ?_⟩
      · show m.memory.read m.hl = _
        rw [hhl, hlow]
      · show data m.hl
        rwa [hhl]
    | _ => exact ⟨hnames, trivial⟩

/-- What is left when the second operand of an accumulator instruction has been found. -/
structure Found (symbols : SymbolTable) (memory : Memory) (b : Byte) (o' : Operand)
    (source : Source) (regs : RegisterFile) (rs : Registers Byte) : Prop where
  names : source.Names symbols memory b rs
  apart : o'.isConst = true → source ≠ .reg .a
  light : regs.Light
  points : Points symbols regs rs

/-- The second operand of an accumulator instruction, with the first one in the accumulator. It is
in the accumulator itself, an immediate, or a variable that HL is made to point at. -/
theorem yields_secondOperand (h : Ready data memory s m)
    (hx : o.value? s.symbols { memory } = some x) (hy : o'.value? s.symbols { memory } = some y)
    (ha : m.registers.a = x.setWidth 8) (hconst : o'.isConst = true → o.isConst = false)
    (honce : ∀ c, (s.triples.drop s.pos).foldr (fun t n => readCount (.const c) t + n) 0 ≤ 1) :
    Yields data quiet 1 (secondOperand (.of o')) s (({} : RegisterFile).bind .a (.of o)) m
      fun source regs rs =>
        Found s.symbols memory (y.setWidth 8) o' source regs rs ∧ rs.a = x.setWidth 8 := by
  have hlight : (({} : RegisterFile).bind .a (.of o)).Light :=
    light_empty.bind (reloadable_of_value? hx)
  have hpoints (rs : Registers Byte) : Points s.symbols (({} : RegisterFile).bind .a (.of o)) rs :=
    points_of_get_h rfl
  rw [secondOperand]
  refine .get_bind fun code => ?_
  by_cases heq : o = o'
  · -- The operand is in the accumulator already.
    subst heq
    obtain rfl := Option.some.inj (hx.symm.trans hy)
    have hfind : (({} : RegisterFile).bind .a (.of o)).findByte? (.of o) = some .a := by
      simp [RegisterFile.findByte?, Reg.all, RegisterFile.holds, RegisterFile.get_bind_self]
    simp only [hfind]
    refine .pure ⟨⟨ha, fun hc => ?_, hlight, hpoints _⟩, ha⟩
    rw [hconst hc] at hc
    cases hc
  · have hfind : (({} : RegisterFile).bind .a (.of o)).findByte? (.of o') = none := by
      have hslots : ({} : RegisterFile).bind .a (.of o) =
        { slots := ⟨.scalar (.of o), .empty, .empty, .empty, .empty, .empty, .empty⟩ } := rfl
      simp [hslots, RegisterFile.findByte?, Reg.all, RegisterFile.holds, RegisterFile.get,
        Registers.get, heq]
    have hm : ({ s with code, regs := ({} : RegisterFile).bind .a (.of o) } : State).isAtM
        (.of o') = false := isAtM_of_get_h (by rintro _ ⟨⟩)
    simp only [hfind, hm, Bool.false_eq_true, if_false]
    cases o' with
    | temp => cases hy
    | const c =>
      obtain rfl : BitVec.ofInt 16 c = y := Option.some.inj hy
      have hread : ({ s with code, regs := ({} : RegisterFile).bind .a (.of o) } : State).isReadOnce
          c = true := by
        have hfind : (({} : RegisterFile).bind .a (.of o)).findByte? (.const c) = none := hfind
        simp [State.isReadOnce, hfind, honce c]
      simp only [hread, if_true]
      exact .pure ⟨⟨(setWidth_ofInt c).symm, by rintro _ ⟨⟩, hlight, hpoints _⟩, ha⟩
    | var name =>
      obtain ⟨place, hplace, rfl⟩ := Option.map_eq_some_iff.mp hy
      refine .record_bind (fun _ => vacateHL_of_light (hlight.at (by decide))) ?_
      refine .emit_bind (n := 0) rfl (computes_lxi rfl (h.provides.imm_ofSymbol hplace)) ?_
      intro m' hrs _
      have hhl : m'.registers.h ++ m'.registers.l = place.address := by
        rw [hrs]
        exact high_append_low _
      refine .update_bind (.pure ⟨⟨⟨name, place, hplace, hhl, rfl⟩, by rintro ⟨⟩,
        hlight.clearPair.bindPair rfl, points_bindPair hplace hhl⟩, ?_⟩)
      rw [hrs]
      exact ha

/-- The accumulator instruction of an operator computes it, in either order unless it subtracts. -/
theorem aluResult_of_evaluate? {top : Op} {op : AluOp} {a b v : Byte} (halu : aluOp? top = some op)
    (hrelation : top.relation? = none) (hv : top.evaluate? a b = some v) :
    op ≠ .cmp ∧ (aluResult op a b).1 = v ∧ (top ≠ .sub → (aluResult op b a).1 = v) := by
  cases top <;> first | cases hrelation; done | cases halu; done | cases halu; cases hv
  case sub => exact ⟨nofun, rfl, absurd rfl⟩
  case add => exact ⟨nofun, rfl, fun _ => BitVec.add_comm b a⟩
  case xor => exact ⟨nofun, rfl, fun _ => BitVec.xor_comm b a⟩
  case and => exact ⟨nofun, rfl, fun _ => BitVec.and_comm b a⟩
  case or => exact ⟨nofun, rfl, fun _ => BitVec.or_comm b a⟩

/-- The last part of a byte operation: the code that combines the accumulator with the second
operand. -/
def combineBytes (t : Triple) (swapped : Bool) (source : Source) : Selecting Unit := do
  match aluOp? t.op with
  | none => rejectIllegal t (.onBytes t.op)
  | some op =>
    if t.op = .sub ∧ swapped then
      emitAll [.cma, .inr .a, source.instr .add]
    else
      emit (source.instr op)
  match t.op.relation? with
  | some relation => emitFlag (relation.condition swapped)
  | none => pure ()

/-- The operator is carried out on the accumulator and the source that was found: a comparison with
its flags turned into a number, a subtraction the other way round, or one instruction. -/
theorem yields_combineBytes {source : Source} {swapped : Bool} {op : AluOp} {a b c v : Byte}
    (hprovides : Provides data symbols memory m) (halu : aluOp? t.op = some op)
    (hv : t.op.evaluate? a b = some v)
    (ha : m.registers.a = if swapped then b else a)
    (hsource : source.Names symbols memory c m.registers)
    (hplain : t.op.relation? = none → c = if swapped then a else b)
    (htells : ∀ relation, t.op.relation? = some relation →
      (relation.condition swapped).tells (if swapped then b else a) c = relation.holds a b)
    (hswap : swapped = true → t.op = .sub → source ≠ .reg .a) :
    Yields data quiet 4 (combineBytes t swapped source) s regs m fun _ regs' rs =>
      regs' = regs ∧ rs = { m.registers with a := v } := by
  obtain ⟨hvalue, hwithin⟩ := hsource.value hprovides
  unfold combineBytes
  simp only [halu]
  -- Comparisons come first: they set flags, and a jump over a clearing turns these into one or
  -- zero.
  cases hrelation : t.op.relation? with
  | some relation =>
    have hop : op = .cmp ∧ t.op ≠ .sub := by
      cases hop : t.op <;> rw [hop] at hrelation halu <;> cases hrelation <;> cases halu <;>
        exact ⟨rfl, nofun⟩
    obtain ⟨rfl, hsub⟩ := hop
    have hresult : v = truth ((relation.condition swapped).tells (if swapped then b else a) c) := by
      rw [Op.evaluate?_of_relation? hrelation, Option.some.injEq] at hv
      rw [htells relation hrelation, hv]
    have hcode := computes_compare (relation.condition swapped) hwithin
    rw [hvalue, ha, ← hresult] at hcode
    refine .of_eq (.emitAll (by cases source <;> rfl) hcode ⟨rfl, rfl⟩) fun code => ?_
    rw [if_neg fun h => hsub h.1]
    exact emitAll_emitAll [source.instr .cmp] _
  | none =>
    obtain rfl := hplain hrelation
    -- The only operator that is not symmetric is subtraction. Swapped, it is a subtraction and a
    -- negation.
    by_cases hsub : t.op = .sub ∧ swapped = true
    · obtain ⟨hop, rfl⟩ := hsub
      have hcode := computes_subtractFrom (hswap rfl hop) hwithin
      rw [hop] at hv
      obtain rfl : a - b = v := Option.some.inj hv
      rw [hvalue, ha] at hcode
      refine .of_eq (.le (.emitAll (by cases source <;> rfl) hcode ⟨rfl, rfl⟩) (Nat.le_succ 3))
        fun code => ?_
      rw [if_pos ⟨hop, rfl⟩]
      rfl
    · obtain ⟨hcmp, hresult, hcomm⟩ := aluResult_of_evaluate? halu hrelation hv
      have hresult :
          (aluResult op (if swapped then b else a) (if swapped then a else b)).1 = v := by
        cases swapped with
        | false => exact hresult
        | true => exact hcomm fun hop => hsub ⟨hop, rfl⟩
      have hcode := computes_source hcmp hwithin
      rw [hvalue, ha, hresult] at hcode
      refine .of_eq (.le (.emitAll (by cases source <;> rfl) hcode ⟨rfl, rfl⟩)
        (Nat.le_add_left 1 3))
        fun code => ?_
      rw [if_neg hsub]
      rfl

/-- With nothing in the registers there is nothing to prepare. -/
theorem prepareSecond_of_empty {code : List Instr} (hx : o.value? s.symbols { memory } = some x) :
    prepareSecond (.of o) { s with code, regs := {} } = .ok () { s with code, regs := {} } := by
  rw [prepareSecond, get_run]
  cases o with
  | temp => cases hx
  | const c => rfl
  | var name =>
    rw [isFree_of_empty rfl rfl]
    simp only [Value.isVar, Bool.and_self, Bool.not_true, Bool.and_false, Bool.false_eq_true,
      if_false]
    rfl

/-- In an empty record it is cheaper to load the variable than the literal. -/
theorem prefersSwap_of_empty (hregs : s.regs = {}) {v w : Value} :
    prefersSwap s v w = (v.isConst && !w.isConst) := by
  have hm (v : Value) : s.isAtM v = false := isAtM_of_get_h (by rw [hregs]; nofun)
  have hholds (v : Value) : s.regs.holds .a v = false := by
    rw [hregs]
    rfl
  simp only [prefersSwap, hm, hholds, Bool.false_and, Bool.false_or, Bool.or_false]

/-- A raised constant stands for a constant: where a comparison is turned into one with the next
literal, there was a literal. -/
theorem isConst_of_orient {relation : Relation} {cheap swapped : Bool} {k : Int}
    (h : orient relation cheap o o' = (swapped, some k)) :
    (if swapped then o else o').isConst = true := by
  unfold orient at h
  split at h
  · cases h
  · split at h
    · cases h
    next hconst =>
      split at h
      · cases h
      · split at h
        · cases h
          generalize (if cheap = true then o else o') = q at hconst
          cases q <;> first | rfl | cases hconst
        · cases h

/-- The operand order of a byte operation, and the constant that is compared with. -/
def arrange (op : Op) (lhs rhs : Operand) (cheap : Bool) : Bool × Option Int :=
  match op.relation? with
  | some relation => orient relation cheap lhs rhs
  | none => (cheap, none)

/-- The second operand: the raised constant, if there is one. -/
def raisedOr (raised : Option Int) (o : Operand) : Operand :=
  match raised with
  | some k => .const k
  | none => o

/-- The selection of a byte operation, with the arrangement of its operands already made. -/
theorem selectByteBinary_run {rhs : Operand} (swapped : Bool) (raised : Option Int)
    (hrhs : t.rhs = some rhs)
    (harrange : arrange t.op t.lhs rhs
      (t.op.isSwappable && prefersSwap s (.of t.lhs) (.of rhs)) = (swapped, raised)) :
    selectByteBinary t s =
      (do
        let second := Value.of (raisedOr raised (if swapped then t.lhs else rhs))
        prepareSecond second
        loadAccumulator (.of (if swapped then rhs else t.lhs))
        let source ← secondOperand second
        saveAccumulator true
        combineBytes t swapped source : Selecting Unit) s := by
  -- The definition matches on the arrangement; here it is named so that it can be rewritten.
  have hbody : selectByteBinary t s =
      (do
        let arranged := arrange t.op t.lhs rhs
          (t.op.isSwappable && prefersSwap s (.of t.lhs) (.of rhs))
        let second := match arranged.2 with
          | some k => .const k
          | none => Value.of (if arranged.1 then t.lhs else rhs)
        prepareSecond second
        loadAccumulator (.of (if arranged.1 then rhs else t.lhs))
        let source ← secondOperand second
        saveAccumulator true
        combineBytes t arranged.1 source : Selecting Unit) s := by
    rw [selectByteBinary, hrhs]
    rfl
  rw [hbody, harrange]
  cases raised <;> rfl

/-- If the second operand is a literal after arranging, it was one before. -/
theorem isConst_of_raisedOr {cheap swapped : Bool} {raised : Option Int} {op : Op}
    (harrange : arrange op o o' cheap = (swapped, raised))
    (h : (raisedOr raised (if swapped then o else o')).isConst = true) :
    (if swapped then o else o').isConst = true := by
  cases raised with
  | none => exact h
  | some k =>
    unfold arrange at harrange
    split at harrange
    · exact isConst_of_orient harrange
    · cases harrange

/-- The first part of a byte operation: one operand goes to the accumulator, and the other one is
found. -/
theorem yields_bytes_bind {f : Source → Selecting Unit} {n : Nat}
    {R : Unit → RegisterFile → Registers Byte → Prop} (h : Ready data memory s m)
    (hx : o.value? s.symbols { memory } = some x) (hy : o'.value? s.symbols { memory } = some y)
    (hbyte : s.isByte (.of o) = true) (hconst : o'.isConst = true → o.isConst = false)
    (honce : ∀ c, (s.triples.drop s.pos).foldr (fun t n => readCount (.const c) t + n) 0 ≤ 1)
    (hf : ∀ source regs m', Changes data m'.registers m m' →
      Found s.symbols memory (y.setWidth 8) o' source regs m'.registers →
      m'.registers.a = x.setWidth 8 → Yields data quiet n (f source) s regs m' R) :
    Yields data quiet (2 + n)
      (do
        prepareSecond (.of o')
        loadAccumulator (.of o)
        let source ← secondOperand (.of o')
        saveAccumulator true
        f source) s {} m R := by
  refine .record_bind (fun _ => prepareSecond_of_empty hy) ?_
  -- The three steps in order: load, find, and save the accumulator, which holds nothing that has to
  -- be saved.
  have hload : Yields data quiet 1 (loadAccumulator (.of o)) s {} m _ :=
    yields_loadByte (light_empty.at (by decide)) h hx (atHand_empty s m o x) (by rw [hbyte]; rfl)
  refine .le (hload.bind (k := 1 + n) ?_) (by omega)
  rintro _ regs m' hchanges ⟨rfl, hrs⟩
  have hsecond : Yields data quiet 1 (secondOperand (.of o')) s _ m' _ :=
    yields_secondOperand (h.of_changes hchanges) hx hy (by rw [hrs]) hconst honce
  refine hsecond.bind ?_
  rintro source regs m'' hchanges' ⟨hfound, ha⟩
  refine .record_bind (fun _ => saveAccumulator_of_light (hfound.light.at (by decide))) ?_
  exact hf source regs m'' (hchanges.trans hchanges') hfound ha

/-- The low byte of the value of a literal is that of the literal. -/
theorem lowByte_of_const? (hx : o.value? symbols { memory } = some x) (k : Int)
    (hk : o.const? = some k) : x.setWidth 8 = lowByte k := by
  cases o with
  | const c =>
    obtain rfl : c = k := Option.some.inj hk
    obtain rfl : BitVec.ofInt 16 c = x := Option.some.inj hx
    exact setWidth_ofInt c
  | var | temp => cases hk

/-- A binary operation on bytes, whichever order the selector chooses. Literals are read once, so
none is kept in a register. -/
theorem yields_selectByteBinary {rhs : Operand} {op : AluOp} {v : Byte} (h : Ready data memory s m)
    (hrhs : t.rhs = some rhs) (hx : t.lhs.value? s.symbols { memory } = some x)
    (hy : rhs.value? s.symbols { memory } = some y) (hlbyte : s.isByte (.of t.lhs) = true)
    (hrbyte : s.isByte (.of rhs) = true) (hsome : t.lhs.isConst = true → rhs.isConst = false)
    (halu : aluOp? t.op = some op) (hv : t.op.evaluate? (x.setWidth 8) (y.setWidth 8) = some v)
    (hge : t.op = .ge → t.lhs.isConst = true → x.setWidth 8 ≠ y.setWidth 8)
    (honce : ∀ c, (s.triples.drop s.pos).foldr (fun t n => readCount (.const c) t + n) 0 ≤ 1) :
    Yields data quiet 6 (selectByteBinary t) s {} m fun _ regs rs =>
      regs.Light ∧ Points s.symbols regs rs ∧ rs.a = v := by
  obtain ⟨swapped, raised, harrange⟩ : ∃ swapped raised, arrange t.op t.lhs rhs
      (t.op.isSwappable && ((Value.of t.lhs).isConst && !(Value.of rhs).isConst)) =
        (swapped, raised) := ⟨_, _, rfl⟩
  refine .of_eq ?_ fun code => selectByteBinary_run swapped raised hrhs
    (by rw [prefersSwap_of_empty rfl]; exact harrange)
  -- The value of the second operand, which may be a raised constant.
  obtain ⟨z, hz, hraised⟩ : ∃ z,
      (raisedOr raised (if swapped then t.lhs else rhs)).value? s.symbols { memory } = some z ∧
      (raised.map lowByte).getD (if swapped then x.setWidth 8 else y.setWidth 8) =
        z.setWidth 8 := by
    cases raised with
    | some k => exact ⟨_, rfl, (setWidth_ofInt k).symm⟩
    | none =>
      cases swapped with
      | true => exact ⟨x, hx, rfl⟩
      | false => exact ⟨y, hy, rfl⟩
  have hprimary : (if swapped then rhs else t.lhs).value? s.symbols { memory } =
      some (if swapped then y else x) := by
    cases swapped with
    | true => exact hy
    | false => exact hx
  refine yields_bytes_bind (n := 4) h hprimary hz ?_ ?_ honce ?_
  · cases swapped with
    | true => exact hrbyte
    | false => exact hlbyte
  · intro hconst
    have hsecond := isConst_of_raisedOr harrange hconst
    cases swapped with
    | true => exact hsome hsecond
    | false =>
      cases hlhs : t.lhs.isConst with
      | false => exact hlhs
      | true => exact absurd hsecond (by simp [hsome hlhs])
  · intro source regs m' hchanges hfound ha
    refine (yields_combineBytes (h.provides.of_changes hchanges) halu hv ?_ hfound.names ?_ ?_
      ?_).mono (Nat.le_refl 4) ?_
    · rw [ha]
      cases swapped <;> rfl
    · intro hrelation
      rw [arrange, hrelation] at harrange
      cases harrange
      exact hraised.symm
    · intro relation hrelation
      rw [arrange, hrelation] at harrange
      rw [← hraised]
      refine orient_tells harrange (lowByte_of_const? hx) (lowByte_of_const? hy) ?_
      rintro rfl
      exact hge (by cases hop : t.op <;> rw [hop] at hrelation <;> cases hrelation)
    · rintro rfl hsub
      rw [hsub] at harrange
      obtain ⟨hlhs, rfl⟩ : (Value.of t.lhs).isConst = true ∧ raised = none := by
        simp only [arrange, Op.relation?, Op.isSwappable, Prod.mk.injEq,
          Bool.and_eq_true] at harrange
        exact ⟨harrange.1.2.1, harrange.2.symm⟩
      refine hfound.apart ?_
      cases hop : t.lhs <;> rw [hop] at hlhs <;> first | rfl | cases hlhs
    · rintro _ regs' rs ⟨rfl, rfl⟩
      exact ⟨hfound.light, hfound.points, rfl⟩

/-! ## Shifts and single bytes -/

/-- A byte is loaded into the accumulator to be changed there. All that the record has can be loaded
again, so nothing is saved. -/
theorem yields_loadForChange (hlight : regs.Light) (h : Ready data memory s m)
    (hx : o.value? s.symbols { memory } = some x) (hhand : AtHand s regs m o x)
    (hbyte : s.isByte (.of o) = true) :
    Yields data quiet 1 (loadForChange (.of o)) s regs m fun _ regs' rs =>
      regs' = regs.bind .a (.of o) ∧ regs'.Light ∧
        rs = { m.registers with a := x.setWidth 8 } := by
  have hload : Yields data quiet 1 (loadAccumulator (.of o)) s regs m _ :=
    yields_loadByte (hlight.at (by decide)) h hx hhand (by rw [hbyte]; rfl)
  refine hload.bind (k := 0) ?_
  rintro _ regs' m' - ⟨rfl, hrs⟩
  have hlight' : (regs.bind .a (.of o)).Light := hlight.bind (reloadable_of_value? hx)
  exact .of_record (fun _ => saveAccumulator_of_light (hlight'.at (by decide))) ⟨rfl, hlight', hrs⟩

/-- A call of a routine leaves the registers as the routine does, and a record of what can be loaded
again. -/
theorem yields_callRoutine {routine : Routine} {rs : Registers Byte} (hlight : regs.Light)
    (hcall : Computes data [.call routine] m rs) :
    Yields data false 1 (callRoutine routine) s regs m fun _ regs' rs' =>
      regs'.Light ∧ (regs.get .h = .empty → regs'.get .h = .empty) ∧ rs' = rs := by
  refine .emit_bind (n := 0) rfl hcall ?_
  intro m' hrs _
  refine .update_bind ?_
  have hcleared := hlight.clearAll routine.clobbers
  have hempty (h : regs.get .h = .empty) := get_clearAll_of_empty (q := .h) nofun h routine.clobbers
  split
  · refine .record ⟨hcleared.bind rfl, fun h => ?_, hrs⟩
    exact get_bind_of_empty nofun nofun (hempty h)
  · exact .pure ⟨hcleared, hempty, hrs⟩

/-- A record with the count in `c` has nothing that cannot be loaded again. -/
theorem light_inC (hx : o.value? symbols { memory } = some x) : (InC o).Light := by
  have hv := reloadable_of_value? hx
  cases hconst : o.isConst with
  | true =>
    have hregs : InC o = ({} : RegisterFile).bind .c (.of o) := by
      rw [InC, hconst]
      rfl
    rw [hregs]
    exact light_empty.bind hv
  | false =>
    have hregs : InC o = (({} : RegisterFile).bind .a (.of o)).bind .c (.of o) := by
      rw [InC, hconst]
      rfl
    rw [hregs]
    exact (light_empty.bind hv).bind hv

/-- With a count in `c`, the number to shift is in the accumulator or has to be loaded. -/
theorem atHand_inC (hx : o.value? s.symbols { memory } = some x)
    (hy : o'.value? s.symbols { memory } = some y) (hsome : o.isConst = true → o'.isConst = false)
    (ha : o'.isConst = false → m.registers.a = y.setWidth 8) : AtHand s (InC o') m o x := by
  by_cases heq : o = o'
  · subst heq
    obtain rfl := Option.some.inj (hx.symm.trans hy)
    have hvar : o.isConst = false := by
      cases hconst : o.isConst with
      | false => rfl
      | true => exact (hsome hconst).symm.trans hconst |>.symm
    refine .inr ⟨?_, ha hvar⟩
    simp [InC, RegisterFile.holds, RegisterFile.get, Registers.get, hvar]
  · refine .inl ⟨?_, isAtM_of_get_h (by rintro _ ⟨⟩)⟩
    cases hconst : o'.isConst with
    | true =>
      simp [InC, hconst, RegisterFile.findByte?, Reg.all, RegisterFile.holds, RegisterFile.get,
        Registers.get, Ne.symm heq]
    | false =>
      simp [InC, hconst, RegisterFile.findByte?, Reg.all, RegisterFile.holds, RegisterFile.get,
        Registers.get, Ne.symm heq]

/-- The operator is a shift, to the left or to the right. -/
def shifts (left : Bool) : Op :=
  if left then .shl else .shr

/-- A shift takes the low byte of its right operand as the count. -/
theorem evaluate?_shifts {n : Nat} (left : Bool) (a b : BitVec n) :
    (shifts left).evaluate? a b =
      some (if left then a <<< (b.setWidth 8).toNat else a >>> (b.setWidth 8).toNat) := by
  cases left <;> rfl

/-- A shift of a byte: not at all, once by rotating with the carry cleared, or by calling a routine
with the count in `c`. -/
theorem yields_selectByteShift {count : Operand} {left : Bool} {v : Byte}
    (h : Ready data memory s m) (hdata : Unmarked data m) (hop : t.op = shifts left)
    (hrhs : t.rhs = some count) (hx : t.lhs.value? s.symbols { memory } = some x)
    (hy : count.value? s.symbols { memory } = some y) (hbyte : s.isByte (.of t.lhs) = true)
    (hsome : t.lhs.isConst = true → count.isConst = false)
    (hv : t.op.evaluate? (x.setWidth 8) (y.setWidth 8) = some v) :
    Yields data false 4 (selectByteShift t) s {} m fun _ regs rs =>
      regs.Light ∧ regs.get .h = .empty ∧ rs.a = v := by
  rw [hop, evaluate?_shifts, Option.some.injEq] at hv
  have hleft : (t.op = .shl) = (left = true) := by
    rw [hop]
    cases left <;> simp [shifts]
  rw [selectByteShift]
  simp only [hrhs, hleft]
  have hload : Yields data false 1 (loadForChange (.of t.lhs)) s {} m _ :=
    yields_loadForChange light_empty h hx (atHand_empty s m _ x) hbyte
  -- The cases are no right operand, a literal zero, a literal one, and any other count.
  split
  next heq => cases heq
  next heq =>
    cases heq
    obtain rfl : BitVec.ofInt 16 0 = y := Option.some.inj hy
    refine hload.mono (by decide) ?_
    rintro _ _ _ ⟨rfl, hlight, rfl⟩
    refine ⟨hlight, rfl, ?_⟩
    rw [← hv]
    cases left <;> simp
  next heq =>
    cases heq
    obtain rfl : BitVec.ofInt 16 1 = y := Option.some.inj hy
    refine .le (hload.bind (k := 2) ?_) (by decide)
    rintro _ regs m' - ⟨rfl, hlight, hrs⟩
    refine .emitAll (by cases left <;> rfl) (computes_shiftOne left m') ⟨hlight, rfl, ?_⟩
    rw [← hv, hrs]
    cases left <;> simp
  next heq =>
    cases heq
    refine .le ((yields_loadCount h hy).bind (k := 2) ?_) (Nat.le_refl 4)
    rintro _ regs m' hchanges ⟨rfl, hc, ha⟩
    have hload' : Yields data false 1 (loadForChange (.of t.lhs)) s (InC count) m' _ :=
      yields_loadForChange (light_inC hy) (h.of_changes hchanges) hx (atHand_inC hx hy hsome ha)
        hbyte
    refine hload'.bind (k := 1) ?_
    rintro _ regs m'' hchanges' ⟨rfl, hlight, hrs⟩
    refine .record_bind (fun _ => keepByte_of_reloadable (reloadable_of_value? hy)) ?_
    have hsp : m''.sp = m.sp := hchanges'.sp.trans hchanges.sp
    have hcall := computes_callByteShift left (hdata.of_sp hsp)
    refine (yields_callRoutine hlight hcall).mono (Nat.le_refl 1) ?_
    rintro _ regs rs ⟨hlight', hempty, rfl⟩
    refine ⟨hlight', hempty (get_bind_of_empty nofun nofun rfl), ?_⟩
    rw [← hv, hrs, hc]
    simp

/-- The accumulator holds the result of a triple, and the other registers nothing that is lost. -/
structure HoldsByte (symbols : SymbolTable) (id : Nat) (v : Byte) (regs : RegisterFile)
    (rs : Registers Byte) : Prop where
  record : regs.get .a = .scalar (.temp id)
  light : regs.LightAt [.b, .c, .d, .e, .h, .l]
  points : Points symbols regs rs
  value : rs.a = v

/-- Recording a result in the accumulator leaves the other registers alone. -/
theorem get_bind_a {r : Reg} {v : Value} (hr : r ≠ .m) (hne : r ≠ .a) :
    (regs.bind .a v).get r = regs.get r := by
  refine get_bind_of_not_mem hr ?_
  rw [mem_lost_iff]
  rintro (rfl | ⟨-, p, -, hp⟩)
  · exact hne rfl
  · cases hp

/-- A byte in the accumulator is recorded as the result of a triple. -/
theorem holdsByte_bind {id : Nat} {v : Byte} {rs : Registers Byte} (hlight : regs.Light)
    (hpoints : Points symbols regs rs) (hv : rs.a = v) :
    HoldsByte symbols id v (regs.bind .a (.temp id)) rs where
  record := get_bind_self nofun
  light r hr u hu := by
    have hr' : r ≠ .m ∧ r ≠ .a := by
      revert hr
      cases r <;> decide
    rw [get_bind_a hr'.1 hr'.2] at hu
    exact hlight r (Reg.mem_all hr'.1) u hu
  points name place hplace hget := by
    rw [get_bind_a (r := .h) nofun nofun] at hget
    exact hpoints name place hplace hget
  value := hv

/-- Counting up or down and inverting a byte, in the accumulator. A count is repeated three times at
most, so four instructions are enough. -/
theorem yields_selectByte_unary {v : Byte} (h : Ready data memory s m)
    (hx : t.lhs.value? s.symbols { memory } = some x) (hbyte : s.isByte (.of t.lhs) = true)
    (hrepetitions : t.repetitions ≤ 3)
    (hv : match t.op with
      | .inc => x.setWidth 8 + BitVec.ofNat 8 t.repetitions = v
      | .dec => x.setWidth 8 - BitVec.ofNat 8 t.repetitions = v
      | .inv => ~~~(x.setWidth 8) = v
      | _ => False) :
    Yields data quiet 4 (selectByte t) s {} m fun _ => HoldsByte s.symbols t.id v := by
  have hload : Yields data quiet 1 (loadForChange (.of t.lhs)) s {} m _ :=
    yields_loadForChange light_empty h hx (atHand_empty s m _ x) hbyte
  have hrecord {m' : Machine} (hrs : m'.registers.a = v) :
      Yields data quiet 0 (record (·.bind .a (.temp t.id))) s
        (({} : RegisterFile).bind .a (.of t.lhs)) m' fun _ => HoldsByte s.symbols t.id v :=
    .record (holdsByte_bind (light_empty.bind (reloadable_of_value? hx)) (points_of_get_h rfl) hrs)
  -- All three operators load the operand, change the accumulator and record the result.
  have hcode (is : List Instr) (hlength : is.length ≤ 3)
      (htame : is.all (Instr.isTame quiet) = true)
      (hcomputes : ∀ m' : Machine, m'.registers.a = x.setWidth 8 →
        Computes data is m' { m'.registers with a := v }) :
      Yields data quiet 4 (do
        loadForChange (.of t.lhs)
        emitAll is
        record (·.bind .a (.temp t.id))) s {} m fun _ => HoldsByte s.symbols t.id v := by
    refine .le (hload.bind (k := is.length + 0) ?_) (by omega)
    rintro _ regs m' - ⟨rfl, -, hrs⟩
    refine .emitAll_bind htame (hcomputes m' (by rw [hrs])) fun m'' hrs' _ => ?_
    exact hrecord (by rw [hrs'])
  have hall (i : Instr) (hi : Instr.isTame quiet i = true) :
      (List.replicate t.repetitions i).all (Instr.isTame quiet) = true :=
    List.all_eq_true.mpr fun j hj => by rwa [(List.mem_replicate.mp hj).2]
  rw [selectByte]
  cases hop : t.op <;> rw [hop] at hv
  case inc =>
    refine hcode _ (by rwa [List.length_replicate]) (hall _ rfl) fun m' ha => ?_
    rw [← hv, ← ha]
    exact computes_increments _ m'
  case dec =>
    refine hcode _ (by rwa [List.length_replicate]) (hall _ rfl) fun m' ha => ?_
    rw [← hv, ← ha]
    exact computes_decrements _ m'
  case inv =>
    refine hcode [.cma] (by decide) rfl fun m' ha => ?_
    rw [← hv, ← ha]
    exact computes_inverse m'
  all_goals cases hv

/-- A binary operation on bytes, with its result in the accumulator. -/
theorem yields_selectByte_binary {rhs : Operand} {v : Byte} (h : Ready data memory s m)
    (hdata : Unmarked data m) (hrhs : t.rhs = some rhs)
    (hx : t.lhs.value? s.symbols { memory } = some x)
    (hy : rhs.value? s.symbols { memory } = some y) (hlbyte : s.isByte (.of t.lhs) = true)
    (hrbyte : s.isByte (.of rhs) = true) (hsome : t.lhs.isConst = true → rhs.isConst = false)
    (hv : t.op.evaluate? (x.setWidth 8) (y.setWidth 8) = some v)
    (hge : t.op = .ge → t.lhs.isConst = true → x.setWidth 8 ≠ y.setWidth 8)
    (honce : ∀ c, (s.triples.drop s.pos).foldr (fun t n => readCount (.const c) t + n) 0 ≤ 1) :
    Yields data false 6 (selectByte t) s {} m fun _ => HoldsByte s.symbols t.id v := by
  have hrecord {regs : RegisterFile} {m' : Machine} (hlight : regs.Light)
      (hpoints : Points s.symbols regs m'.registers) (hrs : m'.registers.a = v) :
      Yields data false 0 (record (·.bind .a (.temp t.id))) s regs m'
        fun _ => HoldsByte s.symbols t.id v :=
    .record (holdsByte_bind hlight hpoints hrs)
  have hshift (left : Bool) (hop : t.op = shifts left) :
      Yields data false 6 (do
        selectByteShift t
        record (·.bind .a (.temp t.id))) s {} m fun _ => HoldsByte s.symbols t.id v := by
    refine .le ((yields_selectByteShift h hdata hop hrhs hx hy hlbyte hsome hv).bind (k := 0) ?_)
      (by decide)
    rintro _ regs m' - ⟨hlight, hget, hrs⟩
    exact hrecord hlight (points_of_get_h hget) hrs
  have hbinary {op : AluOp} (halu : aluOp? t.op = some op) :
      Yields data false 6 (do
        selectByteBinary t
        record (·.bind .a (.temp t.id))) s {} m fun _ => HoldsByte s.symbols t.id v := by
    refine (yields_selectByteBinary h hrhs hx hy hlbyte hrbyte hsome halu hv hge honce).bind
      (k := 0) ?_
    rintro _ regs m' - ⟨hlight, hpoints, hrs⟩
    exact hrecord hlight hpoints hrs
  -- Shifts have a selection of their own; all other operators have an accumulator instruction.
  rw [selectByte]
  cases hop : t.op
  case shl => exact hshift true hop
  case shr => exact hshift false hop
  all_goals
    first
    | exact hbinary (by rw [hop]; rfl)
    | (rw [hop] at hv; cases hv)

end Accumulator.Select
