import Accumulator.Proofs.Select.ByteOperation

/-!
# One operation on words

Selected with nothing in the registers, an operation on words puts its first operand into HL and, if
it needs a second one in registers, that into DE or its low byte into `c`. The result is in HL, that
of a comparison in the accumulator.
-/

namespace Accumulator.Select

open Machine RegisterFile

variable {data : Word → Prop} {quiet : Bool} {s : State} {regs : RegisterFile} {m m' : Machine}
  {memory : Memory} {o o' : Operand} {x y v : Word} {t : Triple}

/-- HL holds the result of a triple, and the other registers nothing that is lost. -/
structure HoldsWord (id : Nat) (v : Word) (regs : RegisterFile) (rs : Registers Byte) : Prop where
  high : regs.get .h = .half (.temp id) .high
  low : regs.get .l = .half (.temp id) .low
  light : regs.LightAt [.a, .b, .c, .d, .e]
  value : rs.h ++ rs.l = v

/-- A word in HL becomes the result when it is recorded there. -/
theorem holdsWord_bindPair {id : Nat} {rs : Registers Byte} (hlight : regs.Light)
    (hv : rs.h ++ rs.l = v) : HoldsWord id v (regs.bindPair .h (.temp id)) rs where
  high := (get_bindPair rfl).1
  low := (get_bindPair rfl).2
  light r hr u hu := by
    have hr' : r ≠ .m ∧ r ≠ .h ∧ r ≠ .l := by
      revert hr
      cases r <;> decide
    rw [get_bindPair_of_ne rfl hr'.1 hr'.2.1 hr'.2.2] at hu
    exact hlight r (Reg.mem_all hr'.1) u hu
  value := hv

/-- Load an operand into HL to change it there. -/
theorem yields_loadHLForChange (hlight : regs.Light) (h : Ready data memory s m)
    (hx : o.value? s.symbols { memory } = some x) (hwide : regs.findWide? (.of o) = none)
    (hhand : o.isConst = false → AtHand s regs m o x) :
    Yields data quiet 3 (loadHLForChange (.of o)) s regs m fun _ regs' rs =>
      regs'.Light ∧ ∃ y, rs = { withHL m.registers x with a := y } := by
  have hload : Yields data quiet 3 (loadHL (.of o)) s regs m _ :=
    yields_loadHL hlight h hx hwide hhand
  refine hload.bind (k := 0) ?_
  rintro _ regs' m' - ⟨hlight', hrs⟩
  exact .of_record (fun _ => preserveHL_of_light (hlight'.at (by decide))) ⟨hlight', hrs⟩

/-- With an empty record, an operand is loaded into HL in at most three instructions. -/
theorem yields_changeHL (h : Ready data memory s m) (hx : o.value? s.symbols { memory } = some x) :
    Yields data quiet 3 (loadHLForChange (.of o)) s {} m fun _ regs' rs =>
      regs'.Light ∧ rs.h ++ rs.l = x := by
  refine (yields_loadHLForChange light_empty h hx rfl fun _ => atHand_empty s m o x).mono
    (Nat.le_refl 3) ?_
  rintro _ regs' _ ⟨hlight, z, rfl⟩
  exact ⟨hlight, high_append_low _⟩

/-- A sum of words. If both operands are the same, HL is added to itself; otherwise DE is added to
it. -/
theorem yields_selectWordAdd (h : Ready data memory s m)
    (hx : o.value? s.symbols { memory } = some x) (hy : o'.value? s.symbols { memory } = some y) :
    Yields data quiet 7 (selectWordAdd (.of o) (.of o')) s {} m fun _ regs rs =>
      regs.Light ∧ rs.h ++ rs.l = x + y := by
  rw [selectWordAdd]
  split
  next heq =>
    obtain rfl := Value.of.inj heq
    obtain rfl := Option.some.inj (hx.symm.trans hy)
    have hload : Yields data quiet 3 (loadHLForChange (.of o)) s {} m _ := yields_changeHL h hx
    refine .le (hload.bind (k := 1) ?_) (by decide)
    rintro _ regs m' - ⟨hlight, hrs⟩
    refine .emit rfl (computes_addPair (p := .h) nofun m') ⟨hlight, ?_⟩
    rw [← hrs]
    exact high_append_low _
  next hne =>
    have hplace : Yields data quiet 6 (placeOperands (.of o) (.of o') none) s {} m _ :=
      yields_placeOperands h hx hy nofun
    refine hplace.bind (k := 1) ?_
    rintro p regs m' - ⟨rfl, hlight, hhl, hde⟩
    refine .record_bind (fun _ => preserveHL_of_light (hlight.at (by decide))) ?_
    refine .emit rfl (computes_addPair (p := .d) nofun m') ⟨hlight, ?_⟩
    rw [← hhl, ← hde]
    exact high_append_low _

/-- A bitwise operation on words, byte by byte through the accumulator. The second operand is a
literal in the instructions, or it is in DE. -/
theorem yields_selectWordBitwise {op : AluOp} (hop : isBitwise op = true)
    (h : Ready data memory s m) (hx : o.value? s.symbols { memory } = some x)
    (hy : o'.value? s.symbols { memory } = some y) :
    Yields data quiet 12 (selectWordBitwise op (.of o) (.of o')) s {} m fun _ regs rs =>
      regs.Light ∧ rs.h ++ rs.l = bitwise op x y := by
  cases o' with
  | temp => cases hy
  | const c =>
    obtain rfl : BitVec.ofInt 16 c = y := Option.some.inj hy
    -- A literal is part of the instructions, so only HL has to be loaded.
    have hload : Yields data quiet 3 (loadHLForChange (.of o)) s {} m _ := yields_changeHL h hx
    refine .le (hload.bind (k := 6) ?_) (by decide)
    rintro _ regs m' - ⟨hlight, hrs⟩
    refine .record_bind (fun _ => saveAccumulator_of_light (hlight.at (by decide))) ?_
    obtain ⟨z, hcode⟩ : ∃ z, Computes data _ m' _ := computes_bitwiseLiteral hop c m'
    refine .emitAll_bind (n := 0) rfl hcode fun m'' hrs' _ => ?_
    refine .record ⟨hlight.clear, ?_⟩
    rw [hrs', ← hrs]
    exact high_append_low _
  | var name =>
    have hplace : Yields data quiet 6 (placeOperands (.of o) (.of (.var name)) none) s {} m _ :=
      yields_placeOperands h hx hy nofun
    refine hplace.bind (k := 6) ?_
    rintro p regs m' - ⟨rfl, hlight, hhl, hde⟩
    refine .record_bind (fun _ => preserveHL_of_light (hlight.at (by decide))) ?_
    refine .record_bind (fun _ => saveAccumulator_of_light (hlight.at (by decide))) ?_
    obtain ⟨z, hcode⟩ : ∃ z, Computes data _ m' _ :=
      computes_bitwisePair (p := .d) hop rfl nofun m'
    refine .emitAll_bind (n := 0) rfl hcode fun m'' hrs' _ => ?_
    refine .record ⟨hlight.clear, ?_⟩
    rw [hrs', ← hhl, ← hde]
    exact high_append_low _

/-- Operands in HL and DE for a routine that subtracts them. -/
theorem yields_subtractWords (h : Ready data memory s m) (hdata : Unmarked data m)
    (hx : o.value? s.symbols { memory } = some x) (hy : o'.value? s.symbols { memory } = some y) :
    Yields data false 7 (subtractWords (.of o) (.of o')) s {} m fun _ regs rs =>
      regs.Light ∧ rs.h ++ rs.l = x - y := by
  have hplace : Yields data false 6 (placeOperands (.of o) (.of o') (some .d)) s {} m _ :=
    yields_placeOperands h hx hy (by simp)
  refine hplace.bind (k := 1) ?_
  rintro p regs m' hchanges ⟨rfl, hlight, hhl, hde⟩
  refine .record_bind (fun _ => preserveHL_of_light (hlight.at (by decide))) ?_
  refine .record_bind (fun _ => saveAccumulator_of_light (hlight.at (by decide))) ?_
  have hcall := computes_subtractWords (hdata.of_sp hchanges.sp)
  refine (yields_callRoutine hlight hcall).mono (Nat.le_refl 1) ?_
  rintro _ regs' rs ⟨hlight', -, rfl⟩
  refine ⟨hlight', ?_⟩
  rw [← hhl, ← hde]
  exact high_append_low _

/-! ## Comparisons -/

/-- The code that asks whether HL is zero, if the condition does. -/
def zeroTest (cond : Cond) : List Instr :=
  if asksZero cond then [.mov .a .h, .alu .or .l] else []

/-- The test for zero is added only where the relation asks for it. -/
theorem emitAll_zeroTest {α : Type} (cond : Cond) (f : Unit → Selecting α) :
    (if asksZero cond then emitAll [.mov .a .h, .alu .or .l] >>= f else f ()) =
      (emitAll (zeroTest cond) >>= f) := by
  funext s
  cases hzero : asksZero cond with
  | true => simp [zeroTest, hzero]
  | false =>
    show f () s = f () { s with code := s.code ++ zeroTest cond }
    simp [zeroTest, hzero]

/-- A comparison with its operands in the order in which they are subtracted. -/
theorem yields_compareWords (id : Nat) (cond : Cond) (h : Ready data memory s m)
    (hdata : Unmarked data m) (hx : o.value? s.symbols { memory } = some x)
    (hy : o'.value? s.symbols { memory } = some y) :
    Yields data false 12
      (do
        subtractWords (.of o) (.of o')
        if asksZero cond then
          emitAll [.mov .a .h, .alu .or .l]
        emitFlag cond
        record (·.bind .a (.temp id))) s {} m
      fun _ => HoldsByte s.symbols id (truth (cond.tells x y)) := by
  have hplace : Yields data false 6 (placeOperands (.of o) (.of o') (some .d)) s {} m _ :=
    yields_placeOperands h hx hy (by simp)
  simp only [subtractWords, bind_assoc, emitAll_zeroTest]
  refine hplace.bind (k := 6) ?_
  rintro p regs m' hchanges ⟨rfl, hlight, hhl, hde⟩
  refine .record_bind (fun _ => preserveHL_of_light (hlight.at (by decide))) ?_
  refine .record_bind (fun _ => saveAccumulator_of_light (hlight.at (by decide))) ?_
  -- The flags pass from one instruction to the next, so the code is taken as a whole.
  let code := Instr.call .subtractWord :: (zeroTest cond ++ [.mvi .a 1, .jump cond 4, .alu .xor .a])
  refine .of_eq (y := do
    emitAll code
    record fun rf => (Routine.subtractWord.clobbers.foldl (·.clear ·) rf).bind .a (.temp id))
    ?_ fun before => ?_
  · have hcode : Computes data code m' _ := computes_compareWords cond (hdata.of_sp hchanges.sp)
    have htame : code.all (Instr.isTame false) = true := by
      cases cond <;> rfl
    have hlength : code.length ≤ 6 := by
      cases cond <;> decide
    refine .le (.emitAll_bind (n := 0) htame hcode fun m'' hrs _ => ?_) hlength
    have hempty : ((regs.clear .a).clear .h |>.clear .l).get .h = .empty :=
      get_clear_of_empty nofun (get_clear_self nofun)
    refine .record (holdsByte_bind (hlight.clearAll _) (points_of_get_h hempty) ?_)
    rw [hrs, ← hhl, ← hde]
    rfl
  · have hcode : before ++ [.call .subtractWord] ++ zeroTest cond ++
        [.mvi .a 1, .jump cond 4, .alu .xor .a] = before ++ code := by
      simp [code]
    let after := (Routine.subtractWord.clobbers.foldl (·.clear ·) regs).bind .a (.temp id)
    show EStateM.Result.ok () { s with
        code := before ++ [.call .subtractWord] ++ zeroTest cond ++
          [.mvi .a 1, .jump cond 4, .alu .xor .a]
        regs := after } =
      .ok () { s with code := before ++ code, regs := after }
    rw [hcode]

/-- A comparison of words. Only some conditions can be tested after a subtraction, so `>` and `<=`
exchange their operands. -/
theorem yields_selectWordCompare {relation : Relation} (h : Ready data memory s m)
    (hdata : Unmarked data m) (hrelation : t.op.relation? = some relation)
    (hx : o.value? s.symbols { memory } = some x) (hy : o'.value? s.symbols { memory } = some y) :
    Yields data false 12 (selectWordCompare t (.of o) (.of o')) s {} m
      fun _ => HoldsByte s.symbols t.id (truth (relation.holds x y)) := by
  have hinPair (code : List Instr) (v : Value) :
      ({ s with code, regs := {} } : State).isInPair v .h = false := isInPair_of_empty rfl v .h
  have hplain (hexact : relation.isExact false = true) :=
    relation.tells_condition hexact x y ▸
      yields_compareWords t.id (relation.condition false) h hdata hx hy
  have hswapped (hexact : relation.isExact true = true) :=
    relation.tells_condition hexact x y ▸
      yields_compareWords t.id (relation.condition true) h hdata hy hx
  rw [selectWordCompare, hrelation]
  refine .get_bind fun code => ?_
  simp only [hinPair]
  cases hop : t.op <;> rw [hop] at hrelation <;> cases hrelation
  case eq | ne | lt | ge =>
    exact hplain rfl
  case gt | le =>
    exact hswapped rfl

/-! ## Shifts -/

/-- How often HL is doubled for a shift, if that is how the shift is done. -/
def doublings? (op : Op) (count : Operand) : Option Nat :=
  match count.const? with
  | some n => if op = .shl ∧ 0 ≤ n ∧ n ≤ maxDoublings then some n.toNat else none
  | none => none

/-- Doubling is chosen for a shift to the left by a literal of three at most. -/
theorem doublings?_eq_some {op : Op} {n : Nat} (h : doublings? op o = some n)
    (hy : o.value? s.symbols { memory } = some y) :
    op = .shl ∧ n ≤ 3 ∧ (y.setWidth 8).toNat = n := by
  cases o with
  | var | temp => cases h
  | const c =>
    obtain rfl : BitVec.ofInt 16 c = y := Option.some.inj hy
    simp only [doublings?, Operand.const?, Option.ite_none_right_eq_some, Option.some.injEq] at h
    obtain ⟨⟨hop, hlow, hhigh⟩, rfl⟩ := h
    have hhigh : c ≤ 3 := hhigh
    refine ⟨hop, by omega, ?_⟩
    rw [setWidth_ofInt, lowByte, BitVec.toNat_ofInt]
    omega

/-- A shift of a word. By a small literal to the left, HL is added to itself; otherwise a routine
shifts it, with the count in `c`. -/
theorem yields_selectWordShift {count : Operand} (left : Bool) (h : Ready data memory s m)
    (hdata : Unmarked data m) (hop : t.op = shifts left) (hrhs : t.rhs = some count)
    (hx : t.lhs.value? s.symbols { memory } = some x)
    (hy : count.value? s.symbols { memory } = some y)
    (hsome : t.lhs.isConst = true → count.isConst = false)
    (hv : t.op.evaluate? x y = some v) :
    Yields data false 6 (selectWordShift t) s {} m fun _ regs rs =>
      regs.Light ∧ rs.h ++ rs.l = v := by
  rw [hop, evaluate?_shifts, Option.some.injEq] at hv
  have hleft : (t.op = .shl) = (left = true) := by
    rw [hop]
    cases left <;> simp [shifts]
  -- Name the choice between doubling and the routine, so that it can be split on.
  have hselect : selectWordShift t = (doublings? t.op count).elim
      (do
        loadReg .c (.of count)
        loadHLForChange (.of t.lhs)
        let routine : Routine := if t.op = Op.shl then .shiftLeftWord else .shiftRightWord
        if routine.clobbers.contains .a then
          saveAccumulator false
        keepByte (.of count) .c [.c] true
        callRoutine routine)
      (fun n => do
        loadHLForChange (.of t.lhs)
        emitAll (List.replicate n (.dad .h))) := by
    rw [selectWordShift, hrhs]
    dsimp only
    split
    next hdoublings => rw [show doublings? t.op count = _ from hdoublings, Option.elim_some]
    next hdoublings => rw [show doublings? t.op count = _ from hdoublings, Option.elim_none]
  rw [hselect]
  cases hdoublings : doublings? t.op count with
  | some n =>
    obtain ⟨hshl, hn, hcount⟩ := doublings?_eq_some hdoublings hy
    have hload : Yields data false 3 (loadHLForChange (.of t.lhs)) s {} m _ := yields_changeHL h hx
    refine .le (hload.bind (k := n) ?_) (by omega)
    rintro _ regs m' - ⟨hlight, hrs⟩
    refine .le (.emitAll ?_ (computes_doublings n m') ⟨hlight, ?_⟩) (by simp)
    · refine List.all_eq_true.mpr fun i hi => ?_
      rw [(List.mem_replicate.mp hi).2]
      rfl
    · rw [hleft] at hshl
      rw [← hv, hshl, ← hcount, ← hrs]
      exact high_append_low _
  | none =>
    have hcount : Yields data false 2 (loadReg .c (.of count)) s {} m _ := yields_loadCount h hy
    refine hcount.bind (k := 4) ?_
    rintro _ regs m' hchanges ⟨rfl, hc, ha⟩
    have hload : Yields data false 3 (loadHLForChange (.of t.lhs)) s (InC count) m' _ :=
      yields_loadHLForChange (light_inC hy) (h.of_changes hchanges) hx rfl fun _ =>
        atHand_inC hx hy hsome ha
    refine hload.bind (k := 1) ?_
    rintro _ regs m'' hchanges' ⟨hlight, z, hrs⟩
    have hsp : m''.sp = m.sp := hchanges'.sp.trans hchanges.sp
    obtain ⟨w, hcall⟩ := computes_callWordShift left (hdata.of_sp hsp)
    -- The routine finds the word in HL and the count in `c`.
    have hcalled : Yields data false 1
        (callRoutine (if left then .shiftLeftWord else .shiftRightWord)) s regs m''
        fun _ regs rs => regs.Light ∧ rs.h ++ rs.l = v := by
      refine (yields_callRoutine hlight hcall).mono (Nat.le_refl 1) ?_
      rintro _ regs' rs ⟨hlight', -, rfl⟩
      refine ⟨hlight', ?_⟩
      have hhl : m''.hl = x := by
        rw [Machine.hl, hrs]
        exact high_append_low _
      rw [← hv, ← hc, hhl, hrs]
      exact high_append_low _
    simp only [hleft]
    cases left with
    | true =>
      refine .record_bind (fun _ => keepByte_of_reloadable (reloadable_of_value? hy)) hcalled
    | false =>
      refine .record_bind (fun _ => saveAccumulator_of_light (hlight.at (by decide))) ?_
      exact .record_bind (fun _ => keepByte_of_reloadable (reloadable_of_value? hy)) hcalled

/-! ## All operations -/

theorem rightOperand_run {rhs : Operand} (hrhs : t.rhs = some rhs) :
    rightOperand t s = .ok (.of rhs) s := by
  rw [rightOperand, hrhs]
  rfl

theorem commuteOperands_of_empty {rhs : Operand} {code : List Instr} (hrhs : t.rhs = some rhs) :
    commuteOperands t { s with code, regs := {} } =
      .ok (.of t.lhs, .of rhs) { s with code, regs := {} } := by
  have hinPair (v : Value) : ({ s with code, regs := {} } : State).isInPair v .h = false :=
    isInPair_of_empty rfl v .h
  refine (bind_run (rightOperand_run hrhs)).trans ?_
  rw [get_run, hinPair, hinPair]
  rfl

/-- Counting up or down and inverting a word, with the result in HL. A count is at most three, and
each step is an instruction; a word is inverted byte by byte, through the accumulator. -/
theorem yields_selectWord_unary (h : Ready data memory s m)
    (hx : t.lhs.value? s.symbols { memory } = some x) (hrepetitions : t.repetitions ≤ 3)
    (hv : match t.op with
      | .inc => x + BitVec.ofNat 16 t.repetitions = v
      | .dec => x - BitVec.ofNat 16 t.repetitions = v
      | .inv => ~~~x = v
      | _ => False) :
    Yields data quiet 9 (selectWord t) s {} m fun _ => HoldsWord t.id v := by
  have hload : Yields data quiet 3 (loadHLForChange (.of t.lhs)) s {} m _ := yields_changeHL h hx
  -- Counting up and counting down differ only in the instruction that is repeated.
  have hcount (i : Instr) (hi : Instr.isTame quiet i = true)
      (hcomputes : ∀ m' : Machine, m'.hl = x →
        Computes data (List.replicate t.repetitions i) m' (withHL m'.registers v)) :
      Yields data quiet 9 (do
        loadHLForChange (.of t.lhs)
        emitAll (List.replicate t.repetitions i)
        record (·.bindPair .h (.temp t.id))) s {} m fun _ => HoldsWord t.id v := by
    refine .le (hload.bind (k := (List.replicate t.repetitions i).length + 0) ?_) ?_
    · rintro _ regs m' - ⟨hlight, hrs⟩
      refine .emitAll_bind (n := 0) ?_ (hcomputes m' hrs) fun m'' hrs' _ => ?_
      · refine List.all_eq_true.mpr fun j hj => ?_
        rwa [(List.mem_replicate.mp hj).2]
      · refine .record (holdsWord_bindPair hlight ?_)
        rw [hrs']
        exact high_append_low _
    · rw [List.length_replicate]
      omega
  rw [selectWord]
  cases hop : t.op <;> rw [hop] at hv
  case inc =>
    refine hcount (.inx .h) rfl fun m' hhl => ?_
    rw [← hv, ← hhl]
    exact computes_incrementPair _ m'
  case dec =>
    refine hcount (.dcx .h) rfl fun m' hhl => ?_
    rw [← hv, ← hhl]
    exact computes_decrementPair _ m'
  case inv =>
    refine hload.bind (k := 6) ?_
    rintro _ regs m' - ⟨hlight, hrs⟩
    refine .record_bind (fun _ => saveAccumulator_of_light (hlight.at (by decide))) ?_
    obtain ⟨z, hcode⟩ : ∃ z, Computes data _ m' _ := computes_inverseWord m'
    refine .emitAll_bind (n := 0) rfl hcode fun m'' hrs' _ => ?_
    refine .record (holdsWord_bindPair hlight.clear ?_)
    rw [hrs', ← hv, ← hrs]
    exact high_append_low _
  all_goals cases hv

/-- A binary operation on words, with its result in HL. Every operator but the comparisons ends
there. -/
theorem yields_selectWord_binary {rhs : Operand} (h : Ready data memory s m)
    (hdata : Unmarked data m) (hrhs : t.rhs = some rhs)
    (hx : t.lhs.value? s.symbols { memory } = some x)
    (hy : rhs.value? s.symbols { memory } = some y)
    (hsome : t.lhs.isConst = true → rhs.isConst = false) (hplain : t.op.relation? = none)
    (hv : t.op.evaluate? x y = some v) :
    Yields data false 12 (selectWord t) s {} m fun _ => HoldsWord t.id v := by
  -- Whatever computes the word in HL, recording it there is the same for all operators.
  have hrecord {n : Nat} {x : Selecting Unit} (hn : n ≤ 12)
      (hx : Yields data false n x s {} m fun _ regs rs => regs.Light ∧ rs.h ++ rs.l = v) :
      Yields data false 12 (x >>= fun _ => record (·.bindPair .h (.temp t.id))) s {} m
        fun _ => HoldsWord t.id v := by
    refine .le (hx.bind (k := 0) ?_) hn
    rintro _ regs m' - ⟨hlight, hrs⟩
    exact .record (holdsWord_bindPair hlight hrs)
  have hcommute (code : List Instr) : commuteOperands t { s with code, regs := {} } = _ :=
    commuteOperands_of_empty hrhs
  have hbitwise {op : AluOp} (hop : isBitwise op = true) (hv : bitwise op x y = v) :=
    hrecord (Nat.le_refl 12) (hv ▸ yields_selectWordBitwise hop h hx hy)
  rw [selectWord]
  cases hop : t.op <;> rw [hop] at hv hplain
  case add =>
    obtain rfl : x + y = v := Option.some.inj hv
    exact .record_bind hcommute (hrecord (by decide) (yields_selectWordAdd h hx hy))
  case sub =>
    obtain rfl : x - y = v := Option.some.inj hv
    exact .record_bind (fun _ => rightOperand_run hrhs)
      (hrecord (by decide) (yields_subtractWords h hdata hx hy))
  case and => exact .record_bind hcommute (hbitwise rfl (Option.some.inj hv))
  case or => exact .record_bind hcommute (hbitwise rfl (Option.some.inj hv))
  case xor => exact .record_bind hcommute (hbitwise rfl (Option.some.inj hv))
  case shl =>
    rw [← hop] at hv
    exact hrecord (by decide)
      (yields_selectWordShift true h hdata hop hrhs hx hy hsome hv)
  case shr =>
    rw [← hop] at hv
    exact hrecord (by decide)
      (yields_selectWordShift false h hdata hop hrhs hx hy hsome hv)
  all_goals first | cases hplain; done | cases hv

/-- A comparison of words, with its result in the accumulator. -/
theorem yields_selectWord_compare {rhs : Operand} {relation : Relation}
    (h : Ready data memory s m) (hdata : Unmarked data m) (hrhs : t.rhs = some rhs)
    (hx : t.lhs.value? s.symbols { memory } = some x)
    (hy : rhs.value? s.symbols { memory } = some y) (hrelation : t.op.relation? = some relation) :
    Yields data false 12 (selectWord t) s {} m
      fun _ => HoldsByte s.symbols t.id (truth (relation.holds x y)) := by
  have hcompare : Yields data false 12 (do
      let y ← rightOperand t
      selectWordCompare t (.of t.lhs) y) s {} m
      fun _ => HoldsByte s.symbols t.id (truth (relation.holds x y)) :=
    .record_bind (fun _ => rightOperand_run hrhs)
      (yields_selectWordCompare h hdata hrelation hx hy)
  rw [selectWord]
  cases hop : t.op <;> rw [hop] at hrelation <;> first | exact hcompare | cases hrelation

end Accumulator.Select
