import Accumulator.Proofs.Select.Assignment
import Accumulator.Proofs.Select.Closed
import Accumulator.Select.Program

/-!
# Statements

A statement is a few triples, the last of which assigns. With nothing in the registers before, the
others leave their results in registers for the one that comes next.
-/

namespace Accumulator.Select

open Machine RegisterFile

variable {data : Word → Prop} {quiet : Bool} {s : State} {regs : RegisterFile} {m m' : Machine}
  {memory : Memory} {place : Place} {v w : Word} {n k : Nat} {t : Triple}

/-! ## The result of one operation -/

/-- The result of a triple is in a register: a byte in the accumulator, a word in HL. -/
def Holds (symbols : SymbolTable) (t : Triple) (v : Word) (regs : RegisterFile)
    (rs : Registers Byte) : Prop :=
  match t.resultWidth with
  | .byte => HoldsByte symbols t.id (v.setWidth 8) regs rs
  | .word => HoldsWord t.id v regs rs

/-- An operation on variables and literals of its width that can be selected first. -/
structure Regular (symbols : SymbolTable) (t : Triple) : Prop where
  narrow : t.width = .byte → ∀ o ∈ t.operands, o.width [] symbols = .byte
  count : t.repetitions ≤ 3
  mixed : t.op.isUnary = false → t.lhs.isConst = true → t.rhs.any Operand.isConst = false
  /-- A literal on the left of `>=` is not moved past the byte it is compared with. -/
  exact : t.op = .ge → t.width = .byte → t.lhs.isConst = false

/-- No literal is read twice from here on. -/
def ReadsOnce (s : State) : Prop :=
  ∀ c, (s.triples.drop s.pos).foldr (fun t n => readCount (.const c) t + n) 0 ≤ 1

/-- An operand whose declared width is a byte is taken for one by the selector. -/
theorem isByte_of_width {o : Operand} {x : Word} (hx : o.value? s.symbols { memory } = some x)
    (hbyte : o.width [] s.symbols = .byte) : s.isByte (.of o) = true := by
  cases o with
  | const | var => exact decide_eq_true hbyte
  | temp => cases hx

/-- An operation has one operand or two, each with a value, and its result is cut to the width of
the result. -/
theorem operation?_cases {symbols : SymbolTable} {store : Store}
    (hv : t.operation? symbols store = some v) :
    (∃ x r, t.operands = [t.lhs] ∧ t.lhs.value? symbols store = some x ∧
        t.combine? [x] = some r ∧ t.resultWidth.narrow (r.setWidth 16) = v) ∨
      ∃ rhs x y r, t.rhs = some rhs ∧ t.operands = [t.lhs, rhs] ∧
        t.lhs.value? symbols store = some x ∧ rhs.value? symbols store = some y ∧
        t.combine? [x, y] = some r ∧ t.resultWidth.narrow (r.setWidth 16) = v := by
  obtain ⟨values, hvalues, hcombine⟩ := Option.bind_eq_some_iff.mp hv
  obtain ⟨r, hr, hnarrow⟩ := Option.bind_eq_some_iff.mp hcombine
  have hnarrow := Option.some.inj hnarrow
  -- The operands are counted by the operator, and the values follow them one by one.
  have hoperands : t.operands = [t.lhs] ∨ ∃ rhs, t.rhs = some rhs ∧ t.operands = [t.lhs, rhs] := by
    unfold Triple.operands
    split
    · exact .inl rfl
    · exact .inl rfl
    · cases t.rhs with
      | none => exact .inl rfl
      | some rhs => exact .inr ⟨rhs, rfl, rfl⟩
  rcases hoperands with hoperands | ⟨rhs, hrhs, hoperands⟩
  · rw [hoperands, List.mapM_cons] at hvalues
    obtain ⟨x, hx, hvalues⟩ := Option.bind_eq_some_iff.mp hvalues
    cases hvalues
    exact .inl ⟨x, r, hoperands, hx, hr, hnarrow⟩
  · rw [hoperands, List.mapM_cons, List.mapM_cons] at hvalues
    obtain ⟨x, hx, hvalues⟩ := Option.bind_eq_some_iff.mp hvalues
    obtain ⟨ys, hys, hvalues⟩ := Option.bind_eq_some_iff.mp hvalues
    obtain ⟨y, hy, hnil⟩ := Option.bind_eq_some_iff.mp hys
    cases hnil
    cases hvalues
    exact .inr ⟨rhs, x, y, r, hrhs, hoperands, hx, hy, hr, hnarrow⟩

/-- A byte in the accumulator is the result of an operation on bytes. -/
theorem holds_byte {r : Byte} {rs : Registers Byte} (hwidth : t.resultWidth = .byte)
    (h : HoldsByte s.symbols t.id r regs rs) :
    Holds s.symbols t (t.resultWidth.narrow (r.setWidth 16)) regs rs := by
  have hvalue : (Width.byte.narrow (r.setWidth 16)).setWidth 8 = r := by
    simp [Width.narrow, Width.bits]
  rw [Holds, hwidth, hvalue]
  exact h

/-- A word in HL is the result of an operation on words. -/
theorem holds_word {r : Word} {rs : Registers Byte} (hwidth : t.resultWidth = .word)
    (h : HoldsWord t.id r regs rs) :
    Holds s.symbols t (t.resultWidth.narrow (r.setWidth 16)) regs rs := by
  rw [Holds, hwidth, Width.narrow_word, BitVec.setWidth_eq]
  exact h

/-- A comparison gives a byte, whatever it compares. -/
theorem holds_truth {b : Bool} {rs : Registers Byte} (hwidth : t.resultWidth = .byte)
    (h : HoldsByte s.symbols t.id (truth b) regs rs) :
    Holds s.symbols t (t.resultWidth.narrow ((truth b : Word).setWidth 16)) regs rs := by
  have hvalue : (truth b : Word).setWidth 16 = (truth b : Byte).setWidth 16 := by cases b <;> rfl
  rw [hvalue]
  exact holds_byte hwidth h

/-- An operation with one operand, by cases on the width and the operator. A byte ends up in the
accumulator, and a word in HL. -/
theorem yields_unary {x : Word} {r : BitVec t.width.bits} (h : Ready data memory s m)
    (hregular : Regular s.symbols t) (hoperands : t.operands = [t.lhs])
    (hx : t.lhs.value? s.symbols { memory } = some x) (hr : t.combine? [x] = some r) :
    Yields data quiet 12 (selectTriple t) s {} m
      fun _ => Holds s.symbols t (t.resultWidth.narrow (r.setWidth 16)) := by
  have hbyte := hregular.narrow
  have hcount := hregular.count
  rw [hoperands, List.forall_mem_singleton] at hbyte
  replace hbyte (hwidth : t.width = .byte) := isByte_of_width hx (hbyte hwidth)
  obtain ⟨id, lhs, op, rhs, width, _, _, _⟩ := t
  cases width with
  | byte =>
    cases op
    case inc | dec | inv =>
      cases hr
      exact (yields_selectByte_unary h hx (hbyte rfl) hcount rfl).mono (by decide)
        fun _ _ _ => holds_byte rfl
    all_goals cases hr
  | word =>
    have hsame : x.setWidth Width.word.bits = x := BitVec.setWidth_eq x
    cases op
    case inc | dec | inv =>
      cases hr
      rw [hsame]
      exact (yields_selectWord_unary h hx hcount rfl).mono (by decide) fun _ _ _ => holds_word rfl
    all_goals cases hr

/-- An operation with two operands, by cases on the width and the operator. A comparison gives a
byte in either width. -/
theorem yields_binary {rhs : Operand} {x y : Word} {r : BitVec t.width.bits}
    (h : Ready data memory s m) (hdata : Unmarked data m) (hregular : Regular s.symbols t)
    (honce : ReadsOnce s) (hrhs : t.rhs = some rhs) (hoperands : t.operands = [t.lhs, rhs])
    (hx : t.lhs.value? s.symbols { memory } = some x)
    (hy : rhs.value? s.symbols { memory } = some y) (hr : t.combine? [x, y] = some r) :
    Yields data false 12 (selectTriple t) s {} m
      fun _ => Holds s.symbols t (t.resultWidth.narrow (r.setWidth 16)) := by
  have hbyte := hregular.narrow
  have hexact := hregular.exact
  rw [hoperands, List.forall_mem_cons, List.forall_mem_singleton] at hbyte
  replace hbyte (hwidth : t.width = .byte) :=
    And.intro (isByte_of_width hx (hbyte hwidth).1) (isByte_of_width hy (hbyte hwidth).2)
  -- Two literals are never operands of one operation; they were folded before.
  have hmixed : t.op.isUnary = false → t.lhs.isConst = true → rhs.isConst = false := by
    simpa [hrhs] using hregular.mixed
  obtain ⟨id, lhs, op, _, width, _, _, _⟩ := t
  cases width with
  | byte =>
    have hv : op.evaluate? (x.setWidth 8) (y.setWidth 8) = some r := hr
    have hselect (hop : op.isUnary = false) :=
      yields_selectByte_binary h hdata hrhs hx hy (hbyte rfl).1 (hbyte rfl).2 (hmixed hop) hv
        (fun hge hconst => absurd hconst (by simp [hexact hge rfl])) honce
    cases op
    case inv | inc | dec | assign | index | address | deref => cases hr
    all_goals
      exact (hselect rfl).mono (by decide) fun _ _ _ => holds_byte rfl
  | word =>
    have hv : op.evaluate? x y = some r := by
      rw [← hr, Triple.combine?]
      congr 1
    -- On words, comparisons and the other operators end in different registers.
    have hselect (hop : op.isUnary = false) (hplain : op.relation? = none) :=
      yields_selectWord_binary h hdata hrhs hx hy (hmixed hop) hplain hv
    have hcompare {relation : Relation} (hrelation : op.relation? = some relation) :=
      yields_selectWord_compare h hdata hrhs hx hy hrelation
    cases op
    case inv | inc | dec | assign | index | address | deref => cases hr
    case eq | ne | gt | lt | ge | le =>
      cases hv
      exact (hcompare rfl).mono (Nat.le_refl 12) fun _ _ _ => holds_truth rfl
    all_goals
      exact (hselect rfl rfl).mono (by decide) fun _ _ _ => holds_word rfl

/-- Every operation on variables and literals can be selected first, and leaves its value where the
selector expects the result of the triple. -/
theorem yields_operation (h : Ready data memory s m) (hdata : Unmarked data m)
    (hregular : Regular s.symbols t) (honce : ReadsOnce s)
    (hv : t.operation? s.symbols { memory } = some v) :
    Yields data false 12 (selectTriple t) s {} m fun _ => Holds s.symbols t v := by
  rcases operation?_cases hv with ⟨x, r, hoperands, hx, hr, rfl⟩ |
    ⟨rhs, x, y, r, hrhs, hoperands, hx, hy, hr, rfl⟩
  · exact yields_unary h hregular hoperands hx hr
  · exact yields_binary h hdata hregular honce hrhs hoperands hx hy hr

/-! ## Triple after triple -/

/-- The state with the triple at a position as the current one. -/
def State.entered (s : State) (pos : Nat) (t : Triple) : State :=
  { s with pos, pinned := operandValues s.triples t }

/-- The triples are selected, with any code before them, and nothing is left on the stack. Their
code has at most `n` instructions and stores `w` at the place. -/
def Compiles (data : Word → Prop) (quiet : Bool) (n pos : Nat) (ts : List Triple) (s : State)
    (regs : RegisterFile) (m : Machine) (place : Place) (w : Word) : Prop :=
  ∀ code pos₀ pinned, ∃ more s',
    selectFrom pos ts { s with code, regs, pos := pos₀, pinned } = .ok () s' ∧
      s'.code = code ++ more ∧ s'.spill = none ∧ Straight quiet more ∧ more.length ≤ n ∧
      ∃ m', Walks data more m m' ∧ Written data place w m m'

namespace Compiles

variable {ts : List Triple} {pos : Nat} {Q : Unit → RegisterFile → Registers Byte → Prop}

theorem le (h : Compiles data quiet n pos ts s regs m place w) (hn : n ≤ k) :
    Compiles data quiet k pos ts s regs m place w := by
  intro code pos₀ pinned
  obtain ⟨more, s', hrun, hcode, hspill, hmore, hlength, hwalks⟩ := h code pos₀ pinned
  exact ⟨more, s', hrun, hcode, hspill, hmore, Nat.le_trans hlength hn, hwalks⟩

/-- With nothing saved, a triple is selected as soon as it is entered. -/
theorem selectFrom_cons {code : List Instr} {pos₀ : Nat} {pinned : List Value}
    (hspill : s.spill = none) :
    selectFrom pos (t :: ts) { s with code, regs, pos := pos₀, pinned } =
      (do selectTriple t; selectFrom (pos + 1) ts : Selecting Unit)
        { s.entered pos t with code, regs } := by
  have hdrop : dropDeadSpill { s.entered pos t with code, regs } =
      .ok () { s.entered pos t with code, regs } := by
    rw [dropDeadSpill, get_run]
    simp only [State.entered, hspill]
    rfl
  exact bind_run hdrop

/-- Nothing to do, if the value is there. -/
theorem nil (hspill : s.spill = none) (h : Written data place w m m) :
    Compiles data quiet 0 pos [] s regs m place w :=
  fun code _ _ => ⟨[], _, rfl, (List.append_nil code).symm, hspill, straight_of_tame rfl,
    Nat.le_refl 0, m, .nil m, h⟩

/-- The last triple assigns. -/
theorem last (hspill : s.spill = none)
    (h : Assigns data quiet n (selectTriple t) (s.entered pos t) regs m place w) :
    Compiles data quiet n pos [t] s regs m place w := by
  intro code pos₀ pinned
  obtain ⟨more, regs', hrun, hmore, hlength, hwalks⟩ := h code
  refine ⟨more, { s.entered (pos + 1) t with code := code ++ more, regs := regs' }, ?_, rfl, hspill,
    hmore, hlength, hwalks⟩
  rw [selectFrom_cons hspill, bind_run hrun]
  rfl

/-- A triple in front that computes: its code comes first, and the rest starts with what it leaves
in the registers. -/
theorem cons (hspill : s.spill = none)
    (h : Yields data quiet n (selectTriple t) (s.entered pos t) regs m Q)
    (hrest : ∀ regs' m', Changes data m'.registers m m' → Q () regs' m'.registers →
      Compiles data quiet k (pos + 1) ts s regs' m' place w) :
    Compiles data quiet (n + k) pos (t :: ts) s regs m place w := by
  intro code pos₀ pinned
  obtain ⟨_, front, regs', rs, hrun, htame, hlength, ⟨m₁, hwalks, hchanges⟩, hQ⟩ := h code
  obtain rfl := hchanges.registers
  obtain ⟨rest, s', hrun', hcode, hspill', hrest, hlength', m', hwalks', hwritten⟩ :=
    hrest regs' m₁ hchanges hQ (code ++ front) pos (operandValues s.triples t)
  refine ⟨front ++ rest, s', ?_, ?_, hspill', .append htame hrest, ?_, m', hwalks.append hwalks',
    hwritten.of_changes hchanges⟩
  · rw [selectFrom_cons hspill, bind_run hrun]
    exact hrun'
  · rw [hcode, List.append_assoc]
  · rw [List.length_append]
    omega

/-- The instructions of a program that compiles. Nothing is left on the stack, so there is nothing
to settle at the end. -/
theorem exists_instructions {p : Program}
    (h : Compiles data quiet n 0 p.triples p.entry {} m place w) :
    ∃ code, p.instructions = .ok code ∧ Straight quiet code ∧ code.length ≤ n ∧
      ∃ m', Walks data code m m' ∧ Written data place w m m' := by
  obtain ⟨code, s', hrun, hcode, hspill, h⟩ := h [] 0 []
  refine ⟨code, ?_, h⟩
  have hsettle : settleStack s' = .ok () s' := by
    rw [settleStack, get_run]
    simp only [hspill]
    rfl
  have hall : selectAll p.entry = .ok () s' := by
    rw [selectAll, get_run]
    exact (bind_run hrun).trans hsettle
  have hselect : selectAll { triples := p.triples, symbols := p.symbols } = .ok () s' := hall
  simp only [Program.instructions, hselect]
  exact congrArg Except.ok hcode

end Compiles

/-! ## Assignments to variables -/

/-- The triple assigns an operand to a variable, and cuts off nothing that there is room for. -/
structure Moves (symbols : SymbolTable) (name : String) (o : Operand) (t : Triple) : Prop where
  op : t.op = .assign
  lhs : t.lhs = .var name
  rhs : t.rhs = some o
  direct : t.throughPointer = false
  wide : t.width = .byte → symbols.widthOf name = .byte

variable {name : String} {o : Operand} {u : Triple}

/-- An assignment of this kind is selected as a store into the variable. -/
theorem Moves.selectTriple_eq (h : Moves s.symbols name o u) :
    selectTriple u = storeVariable name (.of o) := by
  obtain ⟨_, _, _, _, _, _, _, _⟩ := u
  cases h.op
  cases h.lhs
  cases h.rhs
  cases h.direct
  rfl

/-- A value that can be delivered is assigned to a variable, in either width. -/
theorem assigns_move (h : Moves s.symbols name o u) (hready : Ready data memory s m)
    (hplace : s.symbols.place? name = some place)
    (hdelivers : Delivers data quiet (s.entered k u) regs m (.of o) w) :
    Assigns data quiet 5 (selectTriple u) (s.entered k u) regs m place w := by
  rw [h.selectTriple_eq]
  exact assigns_storeVariable (s := s.entered k u) hready.provides hplace hdelivers

/-- A variable or a literal is assigned. -/
theorem compiles_move (h : Ready data memory s m) (hu : Moves s.symbols name o u)
    (hplace : s.symbols.place? name = some place) (hw : o.value? s.symbols { memory } = some w) :
    Compiles data quiet 5 0 [u] s {} m place w :=
  .last h.spill (assigns_move hu h hplace (delivers_operand ⟨h.spill, h.provides⟩ hw))

/-- Operations read no elements and follow no pointers. -/
theorem isMemoryOperand_of_operation? (hfind : Triple.find? s.triples t.id = some t)
    (hv : t.operation? s.symbols { memory } = some v) :
    isMemoryOperand s.triples (.temp t.id) = false := by
  have hop : t.op ≠ .deref ∧ t.op ≠ .index := by
    rcases operation?_cases hv with ⟨_, _, _, _, hr, _⟩ | ⟨_, _, _, _, _, _, _, _, hr, _⟩
    all_goals
      constructor <;> intro hop <;>
        simp [Triple.combine?, Op.evaluate?, Op.onBits?, hop] at hr
  simp [isMemoryOperand, hfind, hop.1, hop.2]

/-- The result of an operation can be assigned from where it is: a byte from the accumulator, and a
word from HL. -/
theorem delivers_result (hready : Ready data memory s m)
    (hfind : Triple.find? s.triples t.id = some t)
    (hv : t.operation? s.symbols { memory } = some v) (h : Holds s.symbols t v regs m.registers) :
    Delivers data quiet s regs m (.temp t.id) v := by
  have hwidth : s.widthOf (.temp t.id) = t.resultWidth := by
    simp [State.widthOf, Value.temp, Operand.width, hfind]
  cases hresult : t.resultWidth with
  | byte =>
    rw [Holds, hresult] at h
    have hnarrow : (v.setWidth 8).setWidth 16 = v := by
      rcases operation?_cases hv with ⟨_, _, _, _, _, rfl⟩ | ⟨_, _, _, _, _, _, _, _, _, rfl⟩ <;>
        rw [hresult] <;> exact Width.narrow_narrow .byte _
    rw [← hnarrow]
    exact delivers_of_holdsByte hready.spill (decide_eq_true (hwidth.trans hresult)) h
  | word =>
    rw [Holds, hresult] at h
    exact delivers_of_holdsWord (isMemoryOperand_of_operation? hfind hv) h

/-- The result of an operation is assigned. -/
theorem compiles_operation (h : Ready data memory s m) (hdata : Unmarked data m)
    (htriples : s.triples = [t, u]) (ht : Regular s.symbols t) (honce : ReadsOnce (s.entered 0 t))
    (hv : t.operation? s.symbols { memory } = some v) (hu : Moves s.symbols name (.temp t.id) u)
    (hplace : s.symbols.place? name = some place) :
    Compiles data false 17 0 [t, u] s {} m place v := by
  have hfind : Triple.find? s.triples t.id = some t := by
    simp [htriples, Triple.find?]
  refine .cons (k := 5) h.spill
    (yields_operation (s := s.entered 0 t) ⟨h.spill, h.provides⟩ hdata ht honce hv) ?_
  intro regs m' hchanges hholds
  have hready := h.of_changes hchanges
  exact .last h.spill (assigns_move hu hready hplace
    (delivers_result (s := s.entered 1 u) ⟨h.spill, hready.provides⟩ hfind hv hholds))

end Accumulator.Select
