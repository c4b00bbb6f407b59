import Accumulator.Proofs.Statement.Basic
import Accumulator.Proofs.Triple.Optimize

/-!
# Scalar statements

A statement `t = x`, `t = ~x` or `t = x op y`, where the target is a variable and the operands are
variables or literals. It always compiles, and the code carries out the operation at the wider width
of the operands and assigns as much of the result as the target has room for.

The optimizer may turn the operation around, count instead of adding, or leave it out; what remains
is nothing, one assignment, or one operation and an assignment of its result.
-/

namespace Accumulator

/-- A variable or a literal. -/
inductive Atom where
  | var (name : String)
  | literal (value : Int)
  deriving DecidableEq

namespace Atom

/-- The operand it becomes. -/
def operand : Atom → Operand
  | var name => .var name
  | literal value => .const value

/-- The event that refers to it. -/
def event : Atom → Event
  | var name => .reference name
  | literal value => .literal value

def isVar : Atom → Bool
  | var _ => true
  | literal _ => false

/-- A variable has to be declared. -/
def isDeclared (symbols : SymbolTable) : Atom → Bool
  | var name => symbols.contains name
  | literal _ => true

/-- The declared width of a variable; the width that a literal needs. -/
def width (symbols : SymbolTable) : Atom → Width
  | var name => symbols.widthOf name
  | literal value => Width.ofConstant value

/-- What is in a variable, bytes extended by zeros; a literal modulo 2^16. -/
def value? (symbols : SymbolTable) (memory : Memory) : Atom → Option Word
  | var name => (symbols.place? name).map (·.read memory)
  | literal value => some (.ofInt 16 value)

end Atom

/-- What a scalar statement assigns: at most one operator. -/
inductive Scalar where
  | atom (x : Atom)
  | inverse (x : Atom)
  | binary (op : ExprOp) (x y : Atom)
  deriving DecidableEq

namespace Scalar

/-- The events of an expression, in postfix order. -/
def events : Scalar → List Event
  | atom x => [x.event]
  | inverse x => [x.event, .operator .inv]
  | binary op x y => [x.event, y.event, .operator op]

/-- The events of the statement that assigns it. -/
def statement (target : String) (e : Scalar) : List Event :=
  .reference target :: (e.events ++ [.assign false])

/-- The wider width of the operands. -/
def width (symbols : SymbolTable) : Scalar → Width
  | atom x | inverse x => x.width symbols
  | binary _ x y => (x.width symbols).max (y.width symbols)

/-- The value of an expression: the operands are taken modulo 2^W for the wider width W, the
operation is carried out on numbers of W bits, and the result is extended by zeros. -/
def value? (symbols : SymbolTable) (memory : Memory) (e : Scalar) : Option Word :=
  let bits := (e.width symbols).bits
  match e with
  | atom x => x.value? symbols memory
  | inverse x => do
    let a ← x.value? symbols memory
    return (~~~a.setWidth bits).setWidth 16
  | binary op x y => do
    let a ← x.value? symbols memory
    let b ← y.value? symbols memory
    let r ← op.toOp.evaluate? (a.setWidth bits) (b.setWidth bits)
    return r.setWidth 16

/-- Variables are declared, an operator has one of them as an operand, and no byte is compared by
`>=` with a literal on the left. -/
def isRegular (symbols : SymbolTable) : Scalar → Bool
  | atom x => x.isDeclared symbols
  | inverse x => x.isVar && x.isDeclared symbols
  | binary op x y =>
    op ≠ .inv && x.isDeclared symbols && y.isDeclared symbols && (x.isVar || y.isVar) &&
      !(op = .ge && !x.isVar && (binary op x y).width symbols = .byte)

end Scalar

/-! ## The triples of a statement -/

/-- A triple as it is drafted behind others. -/
def Triple.drafted (symbols : SymbolTable) (earlier : List Triple) (id : Nat) (lhs : Operand)
    (op : Op) (rhs : Option Operand) (throughPointer : Bool := false) : Triple :=
  let t : Triple := { id, lhs, op, rhs, throughPointer }
  { t with width := t.derivedWidth earlier symbols }

namespace Draft

variable {symbols : SymbolTable} {ts : List Triple} {stack : List Operand} {id : Nat}

/-- A literal or a declared variable is put on the stack. -/
theorem accept_atom {x : Atom} (hx : x.isDeclared symbols = true) :
    accept x.event { symbols, triples := ts, stack, nextId := id } =
      .ok () { symbols, triples := ts, stack := x.operand :: stack, nextId := id } := by
  cases x with
  | literal => rfl
  | var name =>
    have hname : symbols.contains name = true := hx
    show (if symbols.contains name then _ else _ : Drafting Unit) _ = _
    rw [if_pos hname]
    rfl

/-- The operator on two operands that are not both literals becomes a triple. -/
theorem accept_binary {op : ExprOp} {lhs rhs : Operand} (hop : op.toOp.isUnary = false)
    (hmixed : lhs.isConst = false ∨ rhs.isConst = false) :
    accept (.operator op) { symbols, triples := ts, stack := rhs :: lhs :: stack, nextId := id } =
      .ok () {
        symbols, triples := ts ++ [.drafted symbols ts id lhs op.toOp (some rhs)]
        stack := .temp id :: stack, nextId := id + 1 } := by
  have hfolded : folded? op.toOp lhs (some rhs) = none := by
    cases lhs <;> cases rhs <;> first | rfl | (rcases hmixed with h | h <;> cases h)
  exact operator_appended (d := { symbols, triples := ts, nextId := id }) hop hfolded

/-- The inverse of an operand that is no literal becomes a triple. -/
theorem accept_inverse {o : Operand} (ho : o.isConst = false) :
    accept (.operator .inv) { symbols, triples := ts, stack := o :: stack, nextId := id } =
      .ok () {
        symbols, triples := ts ++ [.drafted symbols ts id o .inv none]
        stack := .temp id :: stack, nextId := id + 1 } := by
  cases o <;> first | rfl | cases ho

/-- An assignment to a variable becomes a triple and leaves the stack empty. -/
theorem accept_assign_var {name : String} {o : Operand} :
    accept (.assign false) { symbols, triples := ts, stack := [o, .var name], nextId := id } =
      .ok () {
        symbols, triples := ts ++ [.drafted symbols ts id (.var name) .assign (some o)]
        nextId := id + 1 } :=
  rfl

end Draft

namespace Atom

variable {x y : Atom}

/-- An atom is drafted as a literal or as a variable. -/
theorem isConst_operand : x.operand.isConst = !x.isVar := by
  cases x <;> rfl

end Atom

namespace Scalar

variable {symbols : SymbolTable} {target : String} {e : Scalar}

/-- The triple of the operator, if there is one. -/
def computing (symbols : SymbolTable) : Scalar → List Triple
  | atom _ => []
  | inverse x => [.drafted symbols [] 0 x.operand .inv none]
  | binary op x y => [.drafted symbols [] 0 x.operand op.toOp (some y.operand)]

/-- The operand that is assigned. -/
def result : Scalar → Operand
  | atom x => x.operand
  | _ => .temp 0

/-- The triples of the statement. -/
def triples (symbols : SymbolTable) (target : String) (e : Scalar) : List Triple :=
  let ts := e.computing symbols
  ts ++ [.drafted symbols ts ts.length (.var target) .assign (some e.result)]

theorem isUnary_of_ne_inv {op : ExprOp} (h : op ≠ .inv) : op.toOp.isUnary = false := by
  cases op <;> first | rfl | exact absurd rfl h

/-- The statement is drafted, event by event. No operator has literals only, so nothing is folded
and every operator becomes a triple. -/
theorem acceptAll_statement (htarget : symbols.contains target = true)
    (he : e.isRegular symbols = true) :
    ∃ nextId, Draft.acceptAll (e.statement target) { symbols } =
      .ok () { symbols, triples := e.triples symbols target, nextId } := by
  have hreference : Draft.accept (.reference target) { symbols } =
      .ok () { symbols, stack := [.var target] } :=
    Draft.accept_atom (x := .var target) htarget
  cases e with
  | atom x =>
    have hx : x.isDeclared symbols = true := he
    refine ⟨1, (Draft.acceptAll_cons hreference).trans ?_⟩
    exact (Draft.acceptAll_cons (Draft.accept_atom hx)).trans
      (Draft.acceptAll_cons Draft.accept_assign_var)
  | inverse x =>
    obtain ⟨hvar, hx⟩ := Bool.and_eq_true_iff.mp he
    have hconst : x.operand.isConst = false := by rw [Atom.isConst_operand, hvar]; rfl
    refine ⟨2, (Draft.acceptAll_cons hreference).trans ?_⟩
    refine (Draft.acceptAll_cons (Draft.accept_atom hx)).trans ?_
    exact (Draft.acceptAll_cons (Draft.accept_inverse hconst)).trans
      (Draft.acceptAll_cons Draft.accept_assign_var)
  | binary op x y =>
    simp only [isRegular, Bool.and_eq_true, Bool.or_eq_true, decide_eq_true_eq, ne_eq] at he
    obtain ⟨⟨⟨⟨hop, hx⟩, hy⟩, hvar⟩, -⟩ := he
    -- With a variable among the operands there is nothing to fold.
    have hmixed : x.operand.isConst = false ∨ y.operand.isConst = false := by
      simpa [Atom.isConst_operand] using hvar
    refine ⟨2, (Draft.acceptAll_cons hreference).trans ?_⟩
    refine (Draft.acceptAll_cons (Draft.accept_atom hx)).trans ?_
    refine (Draft.acceptAll_cons (Draft.accept_atom hy)).trans ?_
    exact (Draft.acceptAll_cons (Draft.accept_binary (isUnary_of_ne_inv hop) hmixed)).trans
      (Draft.acceptAll_cons Draft.accept_assign_var)

end Scalar

/-! ## What the optimizer leaves of a statement -/

open Select

/-- Operators that compute with values. -/
def Op.isArithmetic : Op → Bool
  | assign | index | address | deref => false
  | _ => true

/-- An arithmetic triple records its value and leaves memory as it is. -/
theorem Triple.step_of_isArithmetic {symbols : SymbolTable} {s : Store} {t : Triple}
    (h : t.op.isArithmetic = true) :
    t.step symbols s = (t.operation? symbols s).map fun value => s.record t.id { value } := by
  cases hop : t.op <;> rw [hop] at h <;>
    first | (simp [step, result?, hop, Function.comp_def]; done) | cases h

/-- The wider of two widths is a byte only if both are. -/
theorem Width.max_eq_byte {x y : Width} (h : x.max y = .byte) : x = .byte ∧ y = .byte := by
  cases x <;> cases y <;> first | exact ⟨rfl, rfl⟩ | cases h

/-- Nothing, an assignment, or an operation and the assignment of its result. -/
inductive Short (symbols : SymbolTable) (target : String) : List Triple → Prop where
  | nothing : Short symbols target []
  | move {u : Triple} {x : Atom} (hu : Moves symbols target x.operand u) : Short symbols target [u]
  | operation {t u : Triple} (hop : t.op.isArithmetic = true) (ht : Regular symbols t)
      (honce : ∀ c, readCount (.const c) t ≤ 1) (hu : Moves symbols target (.temp t.id) u) :
      Short symbols target [t, u]

namespace Short

variable {symbols : SymbolTable} {target : String} {ts : List Triple} {t t' u : Triple}

/-- There are no duplicates. -/
theorem mergeAll_eq (h : Short symbols target ts) : Triple.mergeAll ts = ts := by
  have hnone : Triple.merge? ts = none := by
    cases h with
    | nothing => rfl
    | move hu => simp [Triple.merge?, Triple.mergeFrom?, hu.op]
    | operation _ _ _ hu => simp [Triple.merge?, Triple.mergeFrom?, Triple.findEarlier?, hu.op]
  rw [Triple.mergeAll]
  split
  · rfl
  next heq =>
    rw [hnone] at heq
    cases heq

/-- An assignment is taken away if it assigns a variable to itself, and otherwise it stays. -/
theorem reduceOne_of_moves {o : Operand} (hu : Moves symbols target o u) :
    u.reduceOne = if o = .var target then .selfAssign else .same u := by
  have hright : u.literalRight = u := by simp [Triple.literalRight, hu.op]
  have hself : u.isSelfAssign = decide (o = .var target) := by
    simp [Triple.isSelfAssign, hu.op, hu.direct, hu.lhs, hu.rhs, Operand.var?]
  simp [Triple.reduceOne, hright, hu.op, hself]

/-- An assignment stays, unless it assigns a variable to itself. -/
theorem reduceAll_move {x : Atom} (hu : Moves symbols target x.operand u) :
    Short symbols target (Triple.reduceAll [u]).triples := by
  rw [Triple.reduceAll, reduceOne_of_moves hu, Triple.reduceAll]
  split
  next heq => split at heq <;> cases heq
  next => exact .nothing
  next heq => split at heq <;> cases heq
  next heq =>
    split at heq <;> cases heq
    exact .move hu

/-- The assignment of a result stays. -/
theorem reduceAll_result {id : Nat} (hu : Moves symbols target (.temp id) u) :
    (Triple.reduceAll [u]).triples = [u] := by
  have hsame : u.reduceOne = .same u := by
    rw [reduceOne_of_moves hu, if_neg nofun]
  simp [Triple.reduceAll, hsame]

/-- An operation that stays, or becomes a count, is followed by the assignment of its result, and
both are as short as can be. -/
theorem reduceAll_kept (hkept : t.reduceOne = .counted t' ∨ t.reduceOne = .same t')
    (hop : t'.op.isArithmetic = true) (ht : Regular symbols t')
    (honce : ∀ c, readCount (.const c) t' ≤ 1)
    (hu : Moves symbols target (.temp t'.id) u) :
    Short symbols target (Triple.reduceAll [t, u]).triples := by
  have hreduced : (Triple.reduceAll [t, u]).triples = [t', u] := by
    rcases hkept with hkept | hkept <;>
      · rw [Triple.reduceAll, hkept]
        exact congrArg (t' :: ·) (reduceAll_result hu)
  rw [hreduced]
  exact .operation hop ht honce hu

/-- A triple whose operands are not both literals reads no literal twice. -/
theorem readCount_le_one {l r : Operand} (huses : uses t = [(l, .value), (r, .value)])
    (hmixed : l.isConst = false ∨ r.isConst = false) (c : Int) : readCount (.const c) t ≤ 1 := by
  have hne {o : Operand} (ho : o.isConst = false) : o ≠ .const c := by
    rintro rfl
    cases ho
  rw [readCount, huses, List.countP_cons, List.countP_singleton]
  rcases hmixed with h | h <;> simp only [hne h, decide_false, Bool.false_and] <;> grind

/-- A literal is added to a variable or subtracted from it. Zero is left out, a small literal
becomes a count, and any other stays. -/
theorem reduceAll_constant {op : Op} {name : String} {n : Int}
    (hone : t.reduceOne = t'.reduceConstant op n)
    (hop : t'.op = .add ∧ op = .inc ∨ t'.op = .sub ∧ op = .dec) (hlhs : t'.lhs = .var name)
    (hrhs : t'.rhs = some (.const n)) (hid : t.id = t'.id)
    (hnarrow : t'.width = .byte → symbols.widthOf name = .byte ∧ Width.ofConstant n = .byte)
    (hu : Moves symbols target (.temp t'.id) u) :
    Short symbols target (Triple.reduceAll [t, u]).triples := by
  unfold Triple.reduceConstant at hone
  split at hone
  · -- nothing is added: the variable itself is assigned
    have hmoves : Moves symbols target (Atom.var name).operand (u.rename t.id t'.lhs) :=
      ⟨hu.op, by simp [Triple.rename, hu.lhs],
        by simp [Triple.rename, hu.rhs, hid, hlhs, Atom.operand], hu.direct, hu.wide⟩
    rw [Triple.reduceAll, hone]
    exact reduceAll_move hmoves
  · split at hone
    -- One, two or three: the triple counts, and reads no literal any more.
    next hn =>
      have hsmall : n = 1 ∨ n = 2 ∨ n = 3 := by
        rw [Triple.maxRepetitions] at hn
        omega
      refine reduceAll_kept (.inl hone) ?_ ⟨fun hwidth => ?_, ?_, ?_, ?_⟩ (fun c => ?_) hu
      · rcases hop with ⟨-, rfl⟩ | ⟨-, rfl⟩ <;> rfl
      · have hvar := (hnarrow hwidth).1
        rcases hop with ⟨-, rfl⟩ | ⟨-, rfl⟩ <;>
          simpa [Triple.operands, hlhs, Operand.width] using hvar
      · rcases hop with ⟨-, rfl⟩ | ⟨-, rfl⟩ <;> rcases hsmall with rfl | rfl | rfl <;>
          simp [Triple.repetitions, Triple.countOperand]
      · rcases hop with ⟨-, rfl⟩ | ⟨-, rfl⟩ <;> rintro ⟨⟩
      · rcases hop with ⟨-, rfl⟩ | ⟨-, rfl⟩ <;> rintro ⟨⟩
      · rcases hop with ⟨-, rfl⟩ | ⟨-, rfl⟩ <;> simp [readCount, uses, Triple.operands, hlhs]
    next =>
      have hop : t'.op = .add ∨ t'.op = .sub := hop.imp And.left And.left
      refine reduceAll_kept (.inr hone) ?_ ⟨fun hwidth => ?_, ?_, ?_, ?_⟩ (fun c => ?_) hu
      · rcases hop with hop | hop <;> rw [hop] <;> rfl
      · obtain ⟨hvar, hconst⟩ := hnarrow hwidth
        rcases hop with hop | hop <;>
          simp [Triple.operands, hop, hlhs, hrhs, Operand.width, hvar, hconst]
      · rcases hop with hop | hop <;> simp [Triple.repetitions, hop]
      · simp [hlhs, Operand.isConst]
      · rcases hop with hop | hop <;> simp [hop]
      · refine readCount_le_one (l := .var name) (r := .const n) ?_ (.inl rfl) c
        rcases hop with hop | hop <;> simp [uses, Triple.operands, hop, hlhs, hrhs]

end Short

namespace Scalar

variable {symbols : SymbolTable} {target : String} {e : Scalar}

theorem moves_drafted (symbols : SymbolTable) (ts : List Triple) (id : Nat) (target : String)
    (o : Operand) :
    Moves symbols target o (.drafted symbols ts id (.var target) .assign (some o)) :=
  ⟨rfl, rfl, rfl, rfl, fun hwidth => (Width.max_eq_byte hwidth).1⟩

theorem width_operand (x : Atom) : x.operand.width [] symbols = x.width symbols := by
  cases x <;> rfl

/-- A triple has the width of its expression, that of the wider operand. -/
theorem width_drafted {op : ExprOp} {x y : Atom} :
    (Triple.drafted symbols [] 0 x.operand op.toOp (some y.operand)).width =
      (binary op x y).width symbols := by
  rw [width, ← width_operand, ← width_operand]
  cases op <;> rfl

/-- The triple of a binary operator on two atoms, as it is drafted. -/
theorem regular_binary {op : ExprOp} {x y : Atom} (hvar : x.isVar = true ∨ y.isVar = true)
    (hexact : op = .ge → (binary op x y).width symbols = .byte → x.isVar = true) :
    Regular symbols (.drafted symbols [] 0 x.operand op.toOp (some y.operand)) := by
  refine ⟨fun hbyte => ?_, ?_, fun _ hconst => ?_, fun hge hbyte => ?_⟩
  · obtain ⟨hx, hy⟩ := Width.max_eq_byte (width_drafted.symm.trans hbyte)
    have hoperands : (Triple.drafted symbols [] 0 x.operand op.toOp (some y.operand)).operands =
        [x.operand, y.operand] := by
      cases op <;> rfl
    simp [hoperands, width_operand, hx, hy]
  · cases op <;> exact Nat.le_add_left 1 2
  · have hx : x.isVar = false := by simpa [Triple.drafted, Atom.isConst_operand] using hconst
    simpa [Triple.drafted, Atom.isConst_operand, hx] using hvar
  · have hge : op = .ge := by cases op <;> first | rfl | cases hge
    rw [Triple.drafted, Atom.isConst_operand, hexact hge (width_drafted.symm.trans hbyte)]
    rfl

/-- A binary operator and the assignment of its result are reduced to a short list, whichever of its
operands is a literal. -/
theorem short_binary {op : ExprOp} {x y : Atom} (he : (binary op x y).isRegular symbols = true) :
    Short symbols target (Triple.reduceAll (triples symbols target (binary op x y))).triples := by
  simp only [isRegular, Bool.and_eq_true, Bool.or_eq_true, decide_eq_true_eq, ne_eq] at he
  obtain ⟨⟨⟨⟨hop, -⟩, -⟩, hvar⟩, hexact⟩ := he
  have hregular : Regular symbols (.drafted symbols [] 0 x.operand op.toOp (some y.operand)) :=
    regular_binary hvar (by grind)
  have honce := Short.readCount_le_one
    (t := .drafted symbols [] 0 x.operand op.toOp (some y.operand)) (l := x.operand)
    (r := y.operand)
    (by cases op <;> rfl) (by simpa [Atom.isConst_operand] using hvar)
  have hu := moves_drafted symbols
    [.drafted symbols [] 0 x.operand op.toOp (some y.operand)] 1 target (.temp 0)
  have hsame (h : (Triple.drafted symbols [] 0 x.operand op.toOp (some y.operand)).reduceOne =
      .same (.drafted symbols [] 0 x.operand op.toOp (some y.operand))) :=
    Short.reduceAll_kept (.inr h) (by cases op <;> rfl) hregular honce hu
  cases op
  case add =>
    cases x with
    | var name =>
      cases y with
      | var => exact hsame rfl
      | literal n =>
        exact Short.reduceAll_constant rfl (.inl ⟨rfl, rfl⟩) rfl rfl rfl Width.max_eq_byte hu
    | literal n =>
      cases y with
      | var name =>
        -- the literal goes to the right, at the width that the triple has
        have hturned : (Triple.drafted symbols [] 0 (.const n) .add (some (.var name))).reduceOne =
            Triple.reduceConstant { Triple.drafted symbols [] 0 (.const n) .add
              (some (.var name)) with
              lhs := .var name, rhs := some (.const n) } .inc n := rfl
        exact Short.reduceAll_constant hturned (.inl ⟨rfl, rfl⟩) rfl rfl rfl
          (fun hbyte => (Width.max_eq_byte hbyte).symm) hu
      | literal => simp [Atom.isVar] at hvar
  case sub =>
    cases y with
    | var => exact hsame rfl
    | literal n =>
      cases x with
      | var name =>
        exact Short.reduceAll_constant rfl (.inr ⟨rfl, rfl⟩) rfl rfl rfl Width.max_eq_byte hu
      | literal => simp [Atom.isVar] at hvar
  case inv => exact absurd rfl hop
  all_goals exact hsame rfl

/-- An inverse and the assignment of its result stay as they are. -/
theorem short_inverse (x : Atom) :
    Short symbols target (Triple.reduceAll (triples symbols target (inverse x))).triples := by
  refine Short.reduceAll_kept (.inr rfl) rfl ⟨fun hbyte => ?_, Nat.le_add_left 1 2, nofun, nofun⟩
    (fun c => List.countP_le_length) (moves_drafted symbols _ 1 target (.temp 0))
  exact List.forall_mem_singleton.mpr hbyte

/-- What the optimizer leaves of a statement is short. Duplicates are not merged, as there is at
most one operation. -/
theorem short_optimize (he : e.isRegular symbols = true)
    (horderly : Triple.Orderly symbols false [] (Triple.widthsOf []) (e.triples symbols target)) :
    Short symbols target (Triple.optimize symbols (e.triples symbols target)) := by
  have hshort : Short symbols target (Triple.reduceAll (e.triples symbols target)).triples := by
    cases e with
    | atom x => exact Short.reduceAll_move (moves_drafted symbols [] 0 target x.operand)
    | inverse x => exact short_inverse x
    | binary op x y => exact short_binary he
  rw [Triple.optimize, Triple.reduce_eq horderly, hshort.mergeAll_eq]
  exact hshort

end Scalar

/-! ## What a statement does -/

/-- A place takes as much of a value as there is room for. -/
theorem Place.write_narrow {place : Place} {width : Width} {memory : Memory} {w : Word}
    (h : width = .byte → place.width = .byte) :
    place.write memory (width.narrow w) = place.write memory w := by
  cases width with
  | word => rw [Width.narrow_word]
  | byte =>
    simp only [Place.write, h rfl]
    simp [Width.narrow, Width.bits]

/-- A declared variable has a place. -/
theorem SymbolTable.exists_place? {symbols : SymbolTable} {name : String}
    (h : symbols.contains name = true) : ∃ place, symbols.place? name = some place := by
  obtain ⟨s, hs⟩ := contains_iff.mp h
  obtain rfl : s.name = name := by simpa using List.find?_some hs
  have hbase : symbols.addressOf? s.name = _ := lookup_layout (List.mem_of_find?_eq_some hs)
  simp [place?, hs, hbase]

variable {symbols : SymbolTable} {target : String} {place : Place} {memory : Memory}

/-- An assignment stores the value of its operand at the place of the variable. -/
theorem Select.Moves.step_eq {o : Operand} {u : Triple} {s : Store} (hu : Moves symbols target o u)
    (hplace : symbols.place? target = some place) :
    u.step symbols s =
      (o.value? symbols s).map fun w => { s with memory := place.write s.memory w } := by
  have hwrite (w : Word) : place.write s.memory (u.width.narrow w) = place.write s.memory w :=
    Place.write_narrow fun hbyte => (SymbolTable.width_of_place? hplace).trans (hu.wide hbyte)
  cases hw : o.value? symbols s <;>
    simp [Triple.step, Triple.assigned?, Triple.target?, Operand.place?, hu.op, hu.lhs, hu.rhs,
      hu.direct, hplace, hw, hwrite]

open Machine in
/-- The code of what the optimizer leaves stores what the triples store. By cases: nothing is left,
an assignment, or an operation with the assignment of its result. -/
theorem Short.exists_compiles {data : Word → Prop} {m : Machine} {s : State} {final : Store}
    (h : Short symbols target s.triples) (hready : Ready data m.memory s m)
    (hdata : Unmarked data m)
    (hsymbols : s.symbols = symbols) (hplace : symbols.place? target = some place)
    (hrun : Triple.run symbols s.triples { memory := m.memory } = some final) :
    ∃ w, Compiles data false 17 0 s.triples s {} m place w ∧
      place.write m.memory w = final.memory := by
  subst hsymbols
  generalize hts : s.triples = ts at h hrun
  cases h with
  -- The variable is assigned to itself, so no code stores what is there.
  | nothing =>
    cases hrun
    refine ⟨place.read m.memory, .le (.nil hready.spill ⟨rfl, fun a _ => ?_⟩) (by decide),
      place.write_read _⟩
    rw [place.write_read]
  | @move u x hu =>
    obtain ⟨s₁, hstep, hdone⟩ := Option.bind_eq_some_iff.mp hrun
    cases hdone
    rw [hu.step_eq hplace] at hstep
    obtain ⟨w, hw, rfl⟩ := Option.map_eq_some_iff.mp hstep
    exact ⟨w, .le (compiles_move hready hu hplace hw) (by decide), rfl⟩
  | @operation t u hop ht honce hu =>
    obtain ⟨s₁, hstep, hrest⟩ := Option.bind_eq_some_iff.mp hrun
    rw [Triple.step_of_isArithmetic hop] at hstep
    obtain ⟨v, hv, rfl⟩ := Option.map_eq_some_iff.mp hstep
    obtain ⟨s₂, hstep, hdone⟩ := Option.bind_eq_some_iff.mp hrest
    cases hdone
    rw [hu.step_eq hplace] at hstep
    obtain ⟨w, hw, rfl⟩ := Option.map_eq_some_iff.mp hstep
    obtain rfl : v = w := by simpa [Operand.value?, Store.record] using hw
    refine ⟨v, compiles_operation hready hdata hts ht (fun c => ?_) hv hu hplace, rfl⟩
    -- The assignment reads no literal, so what the operation reads is all.
    have hreads : readCount (.const c) u = 0 := by
      simp [readCount, uses, hu.op, hu.lhs, hu.rhs, hu.direct]
    simp only [State.entered, hts, List.drop_zero, List.foldr_cons, List.foldr_nil, hreads]
    exact honce c

/-- A comparison gives 0 or 1, which fit into a byte; any other operator gives a number of its
width. -/
theorem ExprOp.narrow_evaluate? {op : ExprOp} {width : Width} {a b r : BitVec width.bits}
    (h : op.toOp.evaluate? a b = some r) :
    (if op.toOp.isComparison then Width.byte else width).narrow (r.setWidth 16) =
      r.setWidth 16 := by
  have htruth (c : Bool) :
      Width.byte.narrow ((truth c : BitVec width.bits).setWidth 16) =
        (truth c : BitVec width.bits).setWidth 16 := by
    cases width <;> cases c <;> rfl
  cases op
  case eq | ne | gt | lt | ge | le =>
    cases h
    exact htruth _
  case inv => cases h
  all_goals exact Width.narrow_extend width r

namespace Scalar

variable {e : Scalar} {v : Word}

theorem operand_value? (x : Atom) :
    x.operand.value? symbols { memory } = x.value? symbols memory := by
  cases x <;> rfl

/-- The triple of a binary operator computes the value of the expression. -/
theorem operation?_binary {op : ExprOp} {x y : Atom}
    (hv : (binary op x y).value? symbols memory = some v) :
    (Triple.drafted symbols [] 0 x.operand op.toOp (some y.operand)).operation? symbols { memory } =
      some v := by
  obtain ⟨a, ha, hv⟩ := Option.bind_eq_some_iff.mp hv
  obtain ⟨b, hb, hv⟩ := Option.bind_eq_some_iff.mp hv
  obtain ⟨r, hr, hv⟩ := Option.bind_eq_some_iff.mp hv
  cases hv
  have hresult : (Triple.drafted symbols [] 0 x.operand op.toOp (some y.operand)).resultWidth =
      if op.toOp.isComparison then .byte else (binary op x y).width symbols := by
    rw [← width_drafted]
    cases op <;> rfl
  rw [Triple.operation?_of_operands (by cases op <;> rfl) ((operand_value? x).trans ha)
    ((operand_value? y).trans hb), hresult, width_drafted]
  show Option.map _ (op.toOp.evaluate? _ _) = _
  rw [hr]
  exact congrArg some (ExprOp.narrow_evaluate? hr)

/-- The triple of an inverse computes the value of the expression. -/
theorem operation?_inverse {x : Atom} (hv : (inverse x).value? symbols memory = some v) :
    (Triple.drafted symbols [] 0 x.operand .inv none).operation? symbols { memory } = some v := by
  obtain ⟨a, ha, hv⟩ := Option.bind_eq_some_iff.mp hv
  cases hv
  have hwidth : (Triple.drafted symbols [] 0 x.operand .inv none).width = x.width symbols :=
    width_operand x
  have hresult : (Triple.drafted symbols [] 0 x.operand .inv none).resultWidth = x.width symbols :=
    width_operand x
  have hoperands : (Triple.drafted symbols [] 0 x.operand .inv none).operands = [x.operand] := rfl
  rw [Triple.operation?, hoperands, List.mapM_cons, operand_value?, ha]
  show some (Width.narrow _ ((~~~a.setWidth _).setWidth 16)) = _
  rw [hresult, hwidth]
  exact congrArg some (Width.narrow_extend _ _)

/-- The triples of a statement store the value of the expression. -/
theorem run_triples (hplace : symbols.place? target = some place)
    (hv : e.value? symbols memory = some v) :
    ∃ final, Triple.run symbols (e.triples symbols target) { memory } = some final ∧
      final.memory = place.write memory v := by
  have hstore {s : Store} {o : Operand} (ts : List Triple) (id : Nat) (hs : s.memory = memory)
      (ho : o.value? symbols s = some v) :
      Triple.run symbols [.drafted symbols ts id (.var target) .assign (some o)] s =
        some { s with memory := place.write memory v } := by
    rw [Triple.run, List.foldlM_cons, (moves_drafted symbols ts id target o).step_eq hplace, ho, hs]
    rfl
  have hresult {t : Triple} (hop : t.op.isArithmetic = true) (hid : t.id = 0)
      (ht : t.operation? symbols { memory } = some v) :
      Triple.run symbols [t, .drafted symbols [t] 1 (.var target) .assign (some (.temp 0))]
          { memory } =
        some { Store.record { memory } 0 { value := v } with memory := place.write memory v } := by
    have hstep : t.step symbols { memory } = some (Store.record { memory } 0 { value := v }) := by
      rw [Triple.step_of_isArithmetic hop, ht, hid]
      rfl
    rw [Triple.run, List.foldlM_cons, hstep]
    exact hstore [t] 1 rfl rfl
  cases e with
  | atom x => exact ⟨_, hstore [] 0 rfl ((operand_value? x).trans hv), rfl⟩
  | inverse x => exact ⟨_, hresult rfl rfl (operation?_inverse hv), rfl⟩
  | binary op x y => exact ⟨_, hresult (by cases op <;> rfl) rfl (operation?_binary hv), rfl⟩

theorem exists_atom_value {x : Atom} (hx : x.isDeclared symbols = true) (memory : Memory) :
    ∃ a, x.value? symbols memory = some a := by
  cases x with
  | literal n => exact ⟨_, rfl⟩
  | var name =>
    obtain ⟨place, hplace⟩ := SymbolTable.exists_place? hx
    exact ⟨place.read memory, by rw [Atom.value?, hplace]; rfl⟩

/-- A regular expression has a value, whatever is in memory: its variables are declared, and every
operator but the inverse takes two operands. -/
theorem exists_value (he : e.isRegular symbols = true) (memory : Memory) :
    ∃ v, e.value? symbols memory = some v := by
  cases e with
  | atom x => exact exists_atom_value he memory
  | inverse x =>
    obtain ⟨a, ha⟩ := exists_atom_value (Bool.and_eq_true_iff.mp he).2 memory
    exact ⟨_, Option.bind_eq_some_iff.mpr ⟨a, ha, rfl⟩⟩
  | binary op x y =>
    simp only [isRegular, Bool.and_eq_true, decide_eq_true_eq, ne_eq] at he
    obtain ⟨⟨⟨⟨hop, hx⟩, hy⟩, -⟩, -⟩ := he
    obtain ⟨a, ha⟩ := exists_atom_value hx memory
    obtain ⟨b, hb⟩ := exists_atom_value hy memory
    have hevaluate {n : Nat} (a b : BitVec n) : ∃ r, op.toOp.evaluate? a b = some r := by
      cases op <;> first | exact ⟨_, rfl⟩ | exact absurd rfl hop
    obtain ⟨r, hr⟩ := hevaluate (a.setWidth ((binary op x y).width symbols).bits) (b.setWidth _)
    exact ⟨_, Option.bind_eq_some_iff.mpr ⟨a, ha, Option.bind_eq_some_iff.mpr ⟨b, hb,
      Option.bind_eq_some_iff.mpr ⟨r, hr, rfl⟩⟩⟩⟩

end Scalar

/-! ## Scalars between the base of the data and the stack -/

/-- The variables are scalars that lie below the top of the stack, as far down as a call reaches. -/
structure SymbolTable.FitsScalars (symbols : SymbolTable) : Prop where
  scalars : ∀ s ∈ symbols.toList, s.dimension = none
  total : Machine.dataBase.toNat + symbols.totalSize + 2 ≤ Machine.stackTop.toNat

namespace SymbolTable.FitsScalars

/-- Variables that fit below the stack do not overlap. -/
theorem separate (h : symbols.FitsScalars) : symbols.Separate := by
  refine separate_of_totalSize (fun s hs => ?_) ?_
  · rw [Symbol.size, h.scalars s hs]
    cases s.width <;> decide
  · have := h.total
    have := Machine.stackTop.isLt
    omega

/-- Variables that fit below the stack are not where calls leave their marks, in the two bytes right
below the top. -/
theorem not_mem_callArea (h : symbols.FitsScalars) {name : String}
    (hplace : symbols.place? name = some place) : ∀ a ∈ place.cells, ¬callArea.stack a := by
  intro a ha
  have hstorage := place?_subset_storage h.separate hplace a ha
  obtain ⟨s, hs, -, -⟩ := place?_eq_some hplace
  obtain ⟨hmem, rfl⟩ := mem_of_get? hs
  obtain ⟨k, hk, rfl⟩ := (mem_storage_iff hmem).mp hstorage
  have hend := offset_add_size_le hmem symbols.nodup
  have htotal := h.total
  have hbase : Machine.dataBase.toNat = 4096 := rfl
  have htop : Machine.stackTop.toNat = 61440 := rfl
  have hmark : (Machine.stackTop - 2).toNat = 61438 := rfl
  rw [totalSize, hbase, htop] at htotal
  rintro ⟨hlow, -⟩
  rw [BitVec.le_def, BitVec.toNat_add, BitVec.toNat_ofNat, hbase, hmark] at hlow
  omega

end SymbolTable.FitsScalars

namespace Scalar

open Machine

variable {e : Scalar} {p : Program}

/-- Code is selected for what the optimizer leaves, and it stores the value of the expression. -/
theorem exists_compiles {m : Machine} (hfit : symbols.FitsScalars)
    (hplace : symbols.place? target = some place) (he : e.isRegular symbols = true)
    (horderly : Triple.Orderly symbols false [] (Triple.widthsOf []) (e.triples symbols target))
    (hp : p = { triples := Triple.optimize symbols (e.triples symbols target), symbols })
    (hm : m.addresses = (Machine.ofSymbols symbols).addresses) (hsp : m.sp = stackTop) :
    ∃ v w, e.value? symbols m.memory = some v ∧
      Compiles (fun a => ¬callArea.stack a) false 17 0 p.triples p.entry {} m place w ∧
      place.write m.memory w = place.write m.memory v := by
  subst hp
  obtain ⟨v, hv⟩ := exists_value he m.memory
  obtain ⟨final, hrun, hfinal⟩ := run_triples hplace hv
  obtain ⟨final', hrun', hfinal'⟩ := Triple.run_optimize hfit.separate horderly hrun
  have hready : Ready (fun a => ¬callArea.stack a) m.memory
      (Program.entry { triples := Triple.optimize symbols (e.triples symbols target), symbols })
        m :=
    ⟨rfl, hm, hfit.not_mem_callArea, fun _ _ => rfl⟩
  have hunmarked : Unmarked (fun a => ¬callArea.stack a) m := by
    intro a ha
    rw [hsp]
    refine ⟨fun h => ha ?_, fun h => ha ?_⟩ <;> rw [h] <;> exact ⟨by decide, by decide⟩
  obtain ⟨w, hcompiles, hw⟩ :=
    (short_optimize he horderly).exists_compiles hready hunmarked rfl hplace hrun'
  exact ⟨v, w, hv, hcompiles, hw.trans (hfinal'.trans hfinal)⟩

/-- A scalar statement compiles, and its code assigns the value of the expression, as much of it as
the target has room for. All other variables keep their bytes; of all memory, only the top of the
stack may change, where calls leave their marks. -/
theorem run_statement {declarations : List Event}
    (hdeclarations : Draft.ofEvents declarations = .ok { symbols }) (hfit : symbols.FitsScalars)
    (hplace : symbols.place? target = some place) (he : e.isRegular symbols = true)
    (peephole : Bool) :
    ∃ c, Compilation.ofEvents (declarations ++ e.statement target) peephole = .ok c ∧
      ∀ registers zero carry memory,
        let outcome := Machine.run
          { Machine.ofSymbols c.program.symbols with registers, zero, carry, memory } c.code
        ∃ v, e.value? symbols memory = some v ∧ outcome.fault = none ∧
          place.read outcome.machine.memory = place.width.narrow v ∧
          ∀ a, a ∉ place.cells → ¬(stackTop - 2 ≤ a ∧ a ≤ stackTop) →
            outcome.machine.memory.read a = memory.read a := by
  have htarget : symbols.contains target = true := by
    obtain ⟨s, hs, -⟩ := SymbolTable.place?_eq_some hplace
    exact SymbolTable.contains_iff.mpr ⟨s, hs⟩
  obtain ⟨nextId, hdraft⟩ := acceptAll_statement htarget he
  have hevents := Draft.ofEvents_append hdeclarations hdraft
  have horderly := (Draft.valid_ofEvents hevents).orderly
  have hprogram := Program.ofEvents_of_draft hevents rfl
  obtain ⟨_, _, -, hcompiles, -⟩ :=
    exists_compiles (m := Machine.ofSymbols symbols) hfit hplace he horderly rfl rfl rfl
  obtain ⟨code, hcode, hstraight, hlength, -⟩ := hcompiles.exists_instructions
  have hskips := (Compilation.clean_code
    (Compilation.ofEvents_of_instructions hprogram hcode false)).skips
  refine ⟨_, Compilation.ofEvents_of_instructions hprogram hcode peephole, ?_⟩
  intro registers zero carry memory outcome
  -- The code is the same for every machine; its effect is taken for the one at hand.
  obtain ⟨v, w, hv, hcompiles, hw⟩ :=
    exists_compiles (m := { Machine.ofSymbols symbols with registers, zero, carry, memory })
      hfit hplace he horderly rfl rfl rfl
  obtain ⟨code', hcode', -, -, m', hwalks, hwritten⟩ := hcompiles.exists_instructions
  obtain rfl := Except.ok.inj (hcode.symm.trans hcode')
  obtain ⟨hfault, hmemory⟩ := run_of_written peephole hskips hstraight
    (Nat.le_trans hlength (by decide)) hwalks hwritten rfl
  rw [hw] at hmemory
  refine ⟨v, hv, hfault, ?_, fun a ha hout => ?_⟩
  · calc place.read outcome.machine.memory
        = place.read (place.write memory v) :=
          Place.read_congr fun a ha => hmemory a (hfit.not_mem_callArea hplace a ha)
      _ = place.width.narrow v := Place.read_write
  · exact (hmemory a hout).trans (Place.read_write_of_not_mem ha)

/-- A word and a byte. -/
def sampleScalars : SymbolTable where
  toList := [{ name := "x", width := .word }, { name := "n", width := .byte }]
  nodup := by decide

/-- `n = x >> n`, where `x` is a word and `n` a byte: the count is the target, the shift is a call,
and the result is cut off. -/
theorem run_statement_shift :
    sampleScalars.FitsScalars ∧
      (binary .shr (.var "x") (.var "n")).isRegular sampleScalars = true ∧
      ∃ c, Compilation.ofEvents ([.declare "x" .word, .declare "n" .byte] ++
          (binary .shr (.var "x") (.var "n")).statement "n") true = .ok c ∧
        ∀ registers zero carry memory,
          let outcome := Machine.run
            { Machine.ofSymbols c.program.symbols with registers, zero, carry, memory } c.code
          ∃ v, (binary .shr (.var "x") (.var "n")).value? sampleScalars memory = some v ∧
            outcome.fault = none ∧
            Place.read ⟨0x1002, .byte⟩ outcome.machine.memory = Width.byte.narrow v ∧
            ∀ a, a ∉ Place.cells ⟨0x1002, .byte⟩ → ¬(stackTop - 2 ≤ a ∧ a ≤ stackTop) →
              outcome.machine.memory.read a = memory.read a := by
  have hfit : sampleScalars.FitsScalars := ⟨by decide, by decide⟩
  exact ⟨hfit, rfl, run_statement rfl hfit rfl rfl true⟩

end Scalar

end Accumulator
