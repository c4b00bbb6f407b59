import Mathlib
import Accumulator.Proofs.Literal
import Accumulator.Proofs.Select.Closed
import Accumulator.Proofs.Select.Evaluation

/-!
# Folding and code agree

An expression of literals is folded to one literal, step by step. It can also be left as it is, with
one triple for every operator, and the code of these triples computes its value when it runs. The
two need not agree (`run_program_ne_fold`), for four reasons:

* folding takes the width of a step from the values, a triple takes it from the operands it names;
* code loads the count of a shift into one byte;
* code tests a byte-wide `>=` with a literal on the left as it stands, and that is a strict test;
* the selector may take a pair for a literal below zero that has zero above its low byte, and it may
  overwrite the zero above a byte that is extended in a pair before the pair is read.

The first three are conditions on the expression (`Consistent`), and the last is one on the
selection of its program (`isPlaced`). Where both hold, code leaves what the expression folds to
(`run_program_eq_fold`).
-/

namespace Accumulator

open Select Machine

/-! ## One triple for every operator -/

/-- The table with one word variable, which receives the value. -/
def outcomeTable : SymbolTable where
  toList := [{ name := "w", width := .word }]
  nodup := List.nodup_singleton _

/-- A triple that comes after others, at the width of its operands. -/
def Triple.following (ts : List Triple) (lhs : Operand) (op : Op) (rhs : Option Operand) : Triple :=
  let t : Triple := { id := ts.length, lhs, op, rhs }
  { t with width := t.derivedWidth ts outcomeTable }

namespace LiteralExpr

/-- The triples of an expression behind those that are there, and the operand that stands for it. -/
def unfolded : LiteralExpr → List Triple → List Triple × Operand
  | literal value, ts => (ts, .const value)
  | inverse x, ts =>
    let inner := x.unfolded ts
    (inner.1 ++ [.following inner.1 inner.2 .inv none], .temp inner.1.length)
  | binary op _ x y, ts =>
    let left := x.unfolded ts
    let right := y.unfolded left.1
    (right.1 ++ [.following right.1 left.2 op.toOp (some right.2)], .temp right.1.length)

/-- The operand that stands for the whole expression. -/
def root (e : LiteralExpr) : Operand := (e.unfolded []).2

/-- The assignment at the end. -/
def store (e : LiteralExpr) : Triple :=
  .following (e.unfolded []).1 (.var "w") .assign (some e.root)

/-- Nothing is folded, and the value is assigned to the variable. -/
def program (e : LiteralExpr) : Program :=
  { triples := (e.unfolded []).1 ++ [e.store], symbols := outcomeTable }

/-! ## Where both agree -/

/-- The width of the operand that stands for an expression. -/
def width : LiteralExpr → Width
  | literal value => Width.ofConstant value
  | inverse x => x.width
  | binary op _ x y => if op.toOp.isComparison then .byte else x.width.max y.width

/-- The expression is a literal. -/
def isLiteral : LiteralExpr → Bool
  | literal _ => true
  | _ => false

/-- Every operator is folded at the width it is computed at. The count of a shift of words fits a
byte, unless its low byte shifts everything out as well, and a byte-wide `>=` with a literal on the
left is not asked about equal bytes, unless the same literal is on the right. -/
def Consistent : LiteralExpr → Prop
  | literal _ => True
  | inverse x => x.Consistent ∧ x.width.bits = neededBits [x.value]
  | binary op _ x y =>
    x.Consistent ∧ y.Consistent ∧ (x.width.max y.width).bits = neededBits [x.value, y.value] ∧
      (op = .shl ∨ op = .shr → x.width.max y.width = .word →
        y.value % 65536 < 256 ∨ 16 ≤ y.value % 256) ∧
      (op = .ge → x.width.max y.width = .byte → x.isLiteral = true →
        x.value % 256 ≠ y.value % 256 ∨ y.isLiteral = true ∧ x.value = y.value)

instance decidableConsistent : (e : LiteralExpr) → Decidable e.Consistent
  | literal _ => inferInstanceAs (Decidable True)
  | inverse x =>
    have := decidableConsistent x
    inferInstanceAs (Decidable (_ ∧ _))
  | binary op _ x y =>
    have := decidableConsistent x
    have := decidableConsistent y
    inferInstanceAs (Decidable (_ ∧ _ ∧ _ ∧ (op = .shl ∨ op = .shr → _ → _ ∨ _) ∧
      (op = .ge → _ → _ → _ ≠ _ ∨ _)))

/-- While the program is selected, every operation, and the store at the end, finds its operands in
the registers and pairs that it reads: by the record, a byte in a pair has its zero above it, and is
no literal below zero. The selector places operands without checking this. -/
def isPlaced (e : LiteralExpr) : Bool :=
  placedFrom e.store (.of e.root) 0 (e.unfolded []).1 e.program.entry

/-! ## The values of operators -/

/-- The values of the operators of an expression, in the order of their triples. -/
def results : LiteralExpr → List Word
  | literal _ => []
  | inverse x => x.results ++ [BitVec.ofInt 16 (inverse x).value]
  | binary op hop x y => x.results ++ y.results ++ [BitVec.ofInt 16 (binary op hop x y).value]

end LiteralExpr

section Operators

variable {a b : Int} {w : Width} {op : ExprOp}

/-- A literal cut to its width is the literal at that width. -/
theorem setWidth_ofInt_bits (w : Width) (a : Int) :
    (BitVec.ofInt 16 a).setWidth w.bits = BitVec.ofInt w.bits a := by
  apply BitVec.eq_of_toNat_eq
  rw [BitVec.toNat_setWidth, toNat_ofInt, toNat_ofInt]
  cases w with
  | byte =>
    show (a % 2 ^ 16).toNat % 2 ^ 8 = (a % 2 ^ 8).toNat
    omega
  | word =>
    show (a % 2 ^ 16).toNat % 2 ^ 16 = (a % 2 ^ 16).toNat
    omega

/-- The code looks at the low byte of a count. A count that fits a byte is not cut off, and it does
not matter for one that shifts everything out either way. -/
theorem evaluate?_eq_onBits? (x : BitVec w.bits)
    (hshift : op = .shl ∨ op = .shr → w = .word → b % 65536 < 256 ∨ 16 ≤ b % 256) :
    op.toOp.evaluate? x (BitVec.ofInt w.bits b) = op.toOp.onBits? x (BitVec.ofInt w.bits b) := by
  -- The low byte of the count is the count, or both shift everything out.
  have hcount (h : op = .shl ∨ op = .shr) :
      ((BitVec.ofInt w.bits b).setWidth 8).toNat = (BitVec.ofInt w.bits b).toNat ∨
        w.bits ≤ ((BitVec.ofInt w.bits b).setWidth 8).toNat ∧
          w.bits ≤ (BitVec.ofInt w.bits b).toNat := by
    rw [BitVec.toNat_setWidth, toNat_ofInt]
    cases w with
    | byte =>
      left
      show (b % 2 ^ 8).toNat % 2 ^ 8 = (b % 2 ^ 8).toNat
      omega
    | word =>
      have hsmall := hshift h rfl
      show (b % 2 ^ 16).toNat % 2 ^ 8 = (b % 2 ^ 16).toNat ∨
        16 ≤ (b % 2 ^ 16).toNat % 2 ^ 8 ∧ 16 ≤ (b % 2 ^ 16).toNat
      omega
  -- Only shifts tell the two apart.
  cases op <;> first | rfl | skip
  case shl =>
    simp only [ExprOp.toOp, Op.evaluate?, Op.onBits?]
    obtain heq | ⟨hlow, hwhole⟩ := hcount (.inl rfl)
    · rw [heq]
    · rw [BitVec.shiftLeft_eq_zero hlow, BitVec.shiftLeft_eq_zero hwhole]
  case shr =>
    simp only [ExprOp.toOp, Op.evaluate?, Op.onBits?]
    obtain heq | ⟨hlow, hwhole⟩ := hcount (.inr rfl)
    · rw [heq]
    · rw [BitVec.ushiftRight_eq_zero hlow, BitVec.ushiftRight_eq_zero hwhole]

/-- A triple of an operator computes what folding does, at the same width. -/
theorem exists_evaluate? (hop : op ≠ .inv) (hbits : w.bits = neededBits [a, b])
    (hshift : op = .shl ∨ op = .shr → w = .word → b % 65536 < 256 ∨ 16 ≤ b % 256) :
    ∃ z : BitVec w.bits, op.toOp.evaluate? ((BitVec.ofInt 16 a).setWidth w.bits)
        ((BitVec.ofInt 16 b).setWidth w.bits) = some z ∧
      BitVec.ofInt 16 (op.exact (a % 2 ^ neededBits [a, b]).toNat
        (b % 2 ^ neededBits [a, b]).toNat % 2 ^ neededBits [a, b]) = z.setWidth 16 := by
  have hpos : 0 < w.bits := by cases w <;> decide
  obtain ⟨z, hz, hexact⟩ := onBits?_exact hpos hop (BitVec.ofInt w.bits a) (BitVec.ofInt w.bits b)
  rw [setWidth_ofInt_bits, setWidth_ofInt_bits, evaluate?_eq_onBits? _ hshift]
  refine ⟨z, hz, ?_⟩
  rw [← hbits, ← toNat_ofInt, ← toNat_ofInt, ← hexact]
  exact BitVec.eq_of_toNat_eq (by simp)

/-- The complement of a triple is that of folding, at the same width. -/
theorem ofInt_exact_inv (hbits : w.bits = neededBits [a]) :
    BitVec.ofInt 16 (ExprOp.inv.exact (a % 2 ^ neededBits [a]).toNat 0 % 2 ^ neededBits [a]) =
      (~~~((BitVec.ofInt 16 a).setWidth w.bits)).setWidth 16 := by
  rw [setWidth_ofInt_bits, ← hbits, ← toNat_ofInt, ← toNat_not_exact]
  exact BitVec.eq_of_toNat_eq (by simp)

end Operators

/-! ## The triples of an expression -/

section Body

variable {ρ : Valuation} {n : Nat} {ts new xs ys : List Triple} {t : Triple} {o : Operand}
  {e : LiteralExpr}

/-- A triple applies an operator, and the valuation knows its outcome. -/
structure Node (ρ : Valuation) (t : Triple) : Prop where
  operator : isOperator t.op = true
  unary : t.op = .inv → t.rhs = none
  separated : Separated t ρ
  result : ∃ z, t.combine? (t.operands.map fun o => ρ (.of o)) = some z ∧
    ρ (.temp t.id) = z.setWidth 16
  extended : t.resultWidth = .byte → Side.high.part (ρ (.temp t.id)) = 0

/-- Triples numbered from `n` that read literals and results. -/
structure Body (ρ : Valuation) (n : Nat) (new : List Triple) : Prop where
  id : ∀ i t, new[i]? = some t → t.id = n + i
  node : ∀ t ∈ new, Node ρ t
  operands : ∀ t ∈ new, ∀ o ∈ t.operands, o.var? = none

theorem Body.nil : Body ρ n [] where
  id _ _ h := by cases h
  node _ h := by cases h
  operands _ h := by cases h

theorem Body.id_lt (h : Body ρ n xs) (ht : t ∈ xs) : t.id < n + xs.length := by
  obtain ⟨i, hi, rfl⟩ := List.mem_iff_getElem.mp ht
  rw [h.id i _ (List.getElem?_eq_getElem hi)]
  omega

/-- The triples of one expression behind those of another. -/
theorem Body.append (hx : Body ρ n xs) (hy : Body ρ (n + xs.length) ys) : Body ρ n (xs ++ ys) where
  id i t hi := by
    obtain hlt | hle := Nat.lt_or_ge i xs.length
    · rw [List.getElem?_append_left hlt] at hi
      exact hx.id i t hi
    · rw [List.getElem?_append_right hle] at hi
      have hid := hy.id _ t hi
      omega
  node := List.forall_mem_append.mpr ⟨hx.node, hy.node⟩
  operands := List.forall_mem_append.mpr ⟨hx.operands, hy.operands⟩

/-- One more triple. -/
theorem Body.concat (h : Body ρ n xs) (hid : t.id = n + xs.length) (hnode : Node ρ t)
    (hoperands : ∀ o ∈ t.operands, o.var? = none) : Body ρ n (xs ++ [t]) where
  id i u hi := by
    obtain hlt | hle := Nat.lt_or_ge i xs.length
    · rw [List.getElem?_append_left hlt] at hi
      exact h.id i u hi
    · rw [List.getElem?_append_right hle] at hi
      obtain ⟨hlast, rfl⟩ := List.getElem?_eq_some_iff.mp hi
      have hzero : i - xs.length = 0 := Nat.lt_one_iff.mp hlast
      simp only [hzero, List.getElem_cons_zero]
      omega
  node := List.forall_mem_append.mpr ⟨h.node, List.forall_mem_singleton.mpr hnode⟩
  operands := List.forall_mem_append.mpr ⟨h.operands, List.forall_mem_singleton.mpr hoperands⟩

/-- The operand stands for the expression, behind the triples. -/
structure Root (ρ : Valuation) (ts new : List Triple) (o : Operand) (e : LiteralExpr) : Prop where
  value : ρ (.of o) = BitVec.ofInt 16 e.value
  literal : o.isConst = e.isLiteral
  const : e.isLiteral = true → o = .const e.value
  plain : o.var? = none
  width : ∀ more, o.width (ts ++ new ++ more) outcomeTable = e.width

/-- The last triple stands for the expression: it has the value and the width of it, and is found by
its number. -/
theorem Body.root (h : Body ρ ts.length (xs ++ [t])) (hts : ∀ u ∈ ts, u.id < ts.length)
    (he : e.isLiteral = false) (hvalue : ρ (.temp t.id) = BitVec.ofInt 16 e.value)
    (hwidth : t.resultWidth = e.width) : Root ρ ts (xs ++ [t]) (.temp t.id) e where
  value := hvalue
  literal := he.symm
  const h := by
    rw [he] at h
    cases h
  plain := rfl
  width more := by
    -- Triples are numbered without gaps, so the last one has the greatest number.
    have hid : t.id = ts.length + xs.length := h.id xs.length t (by simp)
    -- No triple in front has this number, so the search finds the last one.
    have hfront : ∀ u ∈ ts ++ xs, ¬u.id = t.id := by
      refine List.forall_mem_append.mpr ⟨fun u hu => ?_, fun u hu => ?_⟩
      · have hlt := hts u hu
        omega
      · obtain ⟨i, hi, rfl⟩ := List.mem_iff_getElem.mp hu
        have hat : (xs ++ [t])[i]? = some xs[i] := by
          rw [List.getElem?_append_left hi, List.getElem?_eq_getElem hi]
        have hlt := h.id i _ hat
        omega
    have hfind : Triple.find? (ts ++ (xs ++ [t]) ++ more) t.id = some t := by
      have hsplit : ts ++ (xs ++ [t]) ++ more = (ts ++ xs) ++ t :: more := by simp
      have hnone : (ts ++ xs).find? (fun u => decide (u.id = t.id)) = none := by
        rw [List.find?_eq_none]
        simpa using hfront
      rw [Triple.find?, hsplit, List.find?_append, hnone, Option.none_or, List.find?_cons_of_pos]
      simp
    simp only [Operand.width, hfind, hwidth]

/-- An operator behind the triples of its operands. -/
theorem Body.extend (h : Body ρ ts.length new) (hts : ∀ u ∈ ts, u.id < ts.length)
    (hid : t.id = (ts ++ new).length) (hnode : Node ρ t)
    (hoperands : ∀ o ∈ t.operands, o.var? = none)
    (he : e.isLiteral = false) (hvalue : ρ (.temp t.id) = BitVec.ofInt 16 e.value)
    (hwidth : t.resultWidth = e.width) :
    Body ρ ts.length (new ++ [t]) ∧ Root ρ ts (new ++ [t]) (.temp (ts ++ new).length) e := by
  have hbody := h.concat (by rw [hid, List.length_append]) hnode hoperands
  refine ⟨hbody, ?_⟩
  rw [← hid]
  exact hbody.root hts he hvalue hwidth

end Body

namespace LiteralExpr

variable {ρ : Valuation} {e : LiteralExpr}

/-- The result of an operator that is a byte has nothing above it. -/
theorem high_part_value (he : e.Consistent) (hliteral : e.isLiteral = false)
    (hwidth : e.width = .byte) : Side.high.part (BitVec.ofInt 16 e.value) = 0 := by
  have hsmall : 0 ≤ e.value ∧ e.value ≤ 255 := by
    cases e with
    | literal value => cases hliteral
    | inverse x =>
      have hbits : neededBits [x.value] = 8 := by
        rw [← he.2, show x.width = .byte from hwidth]
        rfl
      simp only [value, hbits]
      omega
    | binary op hop x y =>
      obtain ⟨-, -, hbits, -, -⟩ := he
      simp only [width] at hwidth
      split at hwidth
      next hcomparison =>
        -- A comparison may be made at the width of words; its result is 0 or 1.
        have hone : ∀ a b, op.exact a b = 0 ∨ op.exact a b = 1 := by
          intro a b
          cases op <;> first | cases hcomparison; done | skip
          all_goals
            simp only [ExprOp.exact]
            split
            · exact .inr rfl
            · exact .inl rfl
        simp only [value]
        rcases neededBits_cases [x.value, y.value] with h | h <;> rw [h] <;>
          rcases hone _ _ with h | h <;> rw [h] <;> decide
      next =>
        have hbits : neededBits [x.value, y.value] = 8 := by
          rw [← hbits, hwidth]
          rfl
        simp only [value, hbits]
        omega
  refine high_part_literal ?_ (by omega)
  rw [Width.ofConstant, if_pos (by omega)]

/-- The triple of a complement. -/
theorem node_inverse {x : LiteralExpr} {o : Operand} {t : Triple} (he : (inverse x).Consistent)
    (hop : t.op = .inv) (hlhs : t.lhs = o) (hrhs : t.rhs = none) (hwidth : t.width = x.width)
    (ho : ρ (.of o) = BitVec.ofInt 16 x.value)
    (hresult : ρ (.temp t.id) = BitVec.ofInt 16 (inverse x).value) :
    Node ρ t ∧ t.resultWidth = (inverse x).width := by
  obtain ⟨id, lhs, op, rhs, w, _, _, _⟩ := t
  subst hop hlhs hrhs hwidth
  refine ⟨⟨rfl, fun _ => rfl, fun h => (by cases h), ?_, fun hbyte => ?_⟩, rfl⟩
  · have hnot := ofInt_exact_inv he.2
    rw [← ho] at hnot
    exact ⟨_, rfl, hresult.trans hnot⟩
  · rw [hresult]
    exact high_part_value he rfl hbyte

/-- The triple of a binary operator computes what folding does, if the expression is consistent. A
literal on the left of `>=` is not equal to the other operand, and so the carry answers the
comparison. -/
theorem node_binary {op : ExprOp} {hop : op ≠ .inv} {x y : LiteralExpr} {a b : Operand} {t : Triple}
    (he : (binary op hop x y).Consistent) (htop : t.op = op.toOp) (hlhs : t.lhs = a)
    (hrhs : t.rhs = some b) (hwidth : t.width = x.width.max y.width)
    (ha : ρ (.of a) = BitVec.ofInt 16 x.value) (hb : ρ (.of b) = BitVec.ofInt 16 y.value)
    (hliteral : a.isConst = x.isLiteral)
    (hsame : x.isLiteral = true → y.isLiteral = true → x.value = y.value → a = b)
    (hresult : ρ (.temp t.id) = BitVec.ofInt 16 (binary op hop x y).value) :
    Node ρ t ∧ t.resultWidth = (binary op hop x y).width := by
  obtain ⟨id, lhs, op', rhs, w, _, _, _⟩ := t
  subst htop hlhs hrhs hwidth
  have hoperator : isOperator op.toOp = true := by cases op <;> rfl
  have hwidth : (if op.toOp.isComparison then Width.byte
      else if op.toOp = .address then .word else x.width.max y.width) =
      (binary op hop x y).width := by
    cases op <;> rfl
  refine ⟨⟨hoperator, fun h => ?_, ?_, ?_, fun hbyte => ?_⟩, hwidth⟩
  · cases op <;> first | exact absurd rfl hop | cases h
  · intro hge hbyte hconst rhs hrhs hdistinct
    cases hrhs
    have hop' : op = .ge := by cases op <;> first | rfl | cases hge
    have hx : x.isLiteral = true := hliteral ▸ hconst
    -- Two equal literals are one operand, and then nothing is compared.
    have hne := (he.2.2.2.2 hop' hbyte hx).resolve_right fun h => hdistinct (hsame hx h.1 h.2)
    rw [lowOf_eq, lowOf_eq, ha, hb]
    intro heq
    have hnat := congrArg BitVec.toNat heq
    rw [BitVec.toNat_setWidth, BitVec.toNat_setWidth, toNat_ofInt, toNat_ofInt] at hnat
    omega
  · obtain ⟨z, hz, hvalue⟩ := exists_evaluate? hop he.2.2.1 he.2.2.2.1
    refine ⟨z, ?_, hresult.trans hvalue⟩
    rw [← hz, ← ha, ← hb, operands_of_isOperator hoperator]
    rfl
  · rw [hresult]
    exact high_part_value he rfl (hwidth ▸ hbyte)

/-- The triples of an expression, by induction: those of the operands stand before the one of the
operator, which reads the roots of both. -/
theorem exists_unfolded (hliteral : ∀ c, ρ (.const c) = BitVec.ofInt 16 c) (he : e.Consistent)
    (ts : List Triple) (hts : ∀ t ∈ ts, t.id < ts.length)
    (hresults : ∀ i w, e.results[i]? = some w → ρ (.temp (ts.length + i)) = w) :
    ∃ new, (e.unfolded ts).1 = ts ++ new ∧ new.length = e.results.length ∧
      Body ρ ts.length new ∧ Root ρ ts new (e.unfolded ts).2 e := by
  induction e generalizing ts with
  | literal value =>
    refine ⟨[], (List.append_nil ts).symm, rfl, .nil, hliteral value, rfl, fun _ => rfl, rfl, ?_⟩
    intro more
    rfl
  | inverse x ih =>
    have hlast : ρ (.temp (ts.length + x.results.length)) = BitVec.ofInt 16 (inverse x).value :=
      hresults _ _ (by simp [results])
    obtain ⟨new, hnew, hlength, hbody, hroot⟩ := ih he.1 ts hts fun i w hi => hresults i w (by
      rw [results, List.getElem?_append_left (List.getElem?_eq_some_iff.mp hi).1]
      exact hi)
    rw [← hlength, ← List.length_append] at hlast
    have hwidth := hroot.width []
    rw [List.append_nil] at hwidth
    obtain ⟨hnode, hresult⟩ := @node_inverse ρ x _
      (.following (ts ++ new) (x.unfolded ts).2 .inv none) he rfl rfl rfl hwidth hroot.value hlast
    refine ⟨new ++ [.following (ts ++ new) (x.unfolded ts).2 .inv none], ?_,
      by simp [results, hlength], ?_⟩
    · simp only [unfolded, hnew, List.append_assoc]
    · simp only [unfolded, hnew]
      refine hbody.extend hts rfl hnode (fun o ho => ?_) rfl hlast hresult
      cases List.mem_singleton.mp ho
      exact hroot.plain
  | binary op hop x y ihx ihy =>
    have hlast : ρ (.temp (ts.length + (x.results.length + y.results.length))) =
        BitVec.ofInt 16 (binary op hop x y).value :=
      hresults _ _ (by simp [results])
    obtain ⟨xs, hxs, hxlength, hxbody, hxroot⟩ := ihx he.1 ts hts fun i w hi => hresults i w (by
      have hlt := (List.getElem?_eq_some_iff.mp hi).1
      rw [results, List.append_assoc, List.getElem?_append_left hlt]
      exact hi)
    have hts' : ∀ t ∈ ts ++ xs, t.id < (ts ++ xs).length := by
      rw [List.length_append]
      refine List.forall_mem_append.mpr ⟨fun t ht => ?_, fun t ht => hxbody.id_lt ht⟩
      exact Nat.lt_add_right _ (hts t ht)
    -- The triples of `y` come after those of `x`, and so do their results.
    obtain ⟨ys, hys, hylength, hybody, hyroot⟩ := ihy he.2.1 (ts ++ xs) hts' fun i w hi => by
      have hlt := (List.getElem?_eq_some_iff.mp hi).1
      rw [List.length_append, hxlength, Nat.add_assoc]
      refine hresults _ w ?_
      rw [results, List.append_assoc, List.getElem?_append_right (Nat.le_add_right _ _),
        Nat.add_sub_cancel_left, List.getElem?_append_left hlt]
      exact hi
    rw [← hxlength, ← hylength, ← List.length_append, ← List.length_append] at hlast
    have hxwidth := hxroot.width ys
    have hywidth := hyroot.width []
    rw [List.append_nil, List.append_assoc] at hywidth
    rw [List.append_assoc] at hxwidth
    have hbody : Body ρ ts.length (xs ++ ys) := hxbody.append (by
      rw [List.length_append] at hybody
      exact hybody)
    have hwidth : Triple.width (.following (ts ++ (xs ++ ys)) (x.unfolded ts).2 op.toOp
        (some (y.unfolded (ts ++ xs)).2)) = x.width.max y.width := by
      rw [← hxwidth, ← hywidth]
      cases op <;> rfl
    have hsame (hx : x.isLiteral = true) (hy : y.isLiteral = true) (hvalue : x.value = y.value) :
        (x.unfolded ts).2 = (y.unfolded (ts ++ xs)).2 := by
      rw [hxroot.const hx, hyroot.const hy, hvalue]
    obtain ⟨hnode, hresult⟩ := @node_binary ρ op hop x y _ _
      (.following (ts ++ (xs ++ ys)) (x.unfolded ts).2 op.toOp (some (y.unfolded (ts ++ xs)).2))
      he rfl rfl rfl hwidth hxroot.value hyroot.value hxroot.literal hsame hlast
    refine ⟨xs ++ ys ++ [.following (ts ++ (xs ++ ys)) (x.unfolded ts).2 op.toOp
      (some (y.unfolded (ts ++ xs)).2)], ?_, by simp [results, hxlength, hylength], ?_⟩
    · simp only [unfolded, hxs, hys, List.append_assoc]
    · simp only [unfolded, hxs, hys, List.append_assoc ts]
      refine hbody.extend hts rfl hnode (fun o ho => ?_) rfl hlast hresult
      rw [operands_of_isOperator hnode.operator] at ho
      obtain rfl | rfl := List.mem_pair.mp ho
      · exact hxroot.plain
      · exact hyroot.plain

/-! ## The program -/

/-- Literals, the results of operators, and the variable with what is in it at first. -/
def valuation (e : LiteralExpr) (memory : Memory) : Valuation
  | .of (.const value) => BitVec.ofInt 16 value
  | .of (.temp id) => e.results[id]?.getD 0
  | .of (.var name) => if name = "w" then memory.readWord dataBase else 0
  | .addr _ => dataBase

section Program

variable {u : Triple} {root : Operand} {ts : List Triple} {m : Machine}

/-- No result stays in memory, since there are no elements and nothing is dereferenced. -/
theorem isMemoryOperand_eq_false (hts : ∀ t ∈ ts, isOperator t.op = true) (hu : u.op = .assign)
    (o : Operand) : isMemoryOperand (ts ++ [u]) o = false := by
  cases o with
  | const _ | var _ => rfl
  | temp id =>
    simp only [isMemoryOperand]
    split
    next t hfind =>
      have hop : t.op ≠ .deref ∧ t.op ≠ .index := by
        obtain ht | ht := List.mem_append.mp (List.mem_of_find?_eq_some hfind)
        · have hoperator := hts t ht
          constructor
          · intro h
            rw [h] at hoperator
            cases hoperator
          · intro h
            rw [h] at hoperator
            cases hoperator
        · rw [List.mem_singleton.mp ht, hu]
          exact ⟨by decide, by decide⟩
      simp [hop]
    next => rfl

/-- Every triple of the body is an operator on literals and results. -/
theorem applies_of_body (hbody : Body ρ 0 ts) (hu : u.op = .assign) {t : Triple} (ht : t ∈ ts) :
    Applies ρ (ts ++ [u]) t := by
  have hnode := hbody.node t ht
  have hmemory := isMemoryOperand_eq_false (fun t ht => (hbody.node t ht).operator) hu
  have hplain : ∀ o ∈ t.operands, Plain (ts ++ [u]) (.of o) := fun o ho =>
    ⟨o, rfl, hbody.operands t ht o ho, hmemory o⟩
  rw [operands_of_isOperator hnode.operator] at hplain
  refine ⟨hnode.operator, hnode.unary, hplain _ List.mem_cons_self, fun rhs hrhs => ?_,
    hnode.separated, hnode.result⟩
  exact hplain rhs (List.mem_cons_of_mem _ (Option.mem_toList.mpr hrhs))

theorem moves_store (e : LiteralExpr) : Moves outcomeTable "w" e.root e.store where
  op := rfl
  lhs := rfl
  rhs := rfl
  direct := rfl
  wide h := by cases h

theorem addressOf?_eq_some_iff (haddresses : m.addresses = (ofSymbols outcomeTable).addresses)
    {name : String} {a : Word} : m.addressOf? name = some a ↔ name = "w" ∧ dataBase = a := by
  have hlayout : (ofSymbols outcomeTable).addresses = [("w", dataBase)] := rfl
  rw [addressOf?, haddresses, hlayout]
  by_cases hname : name = "w"
  · simp [hname]
  · simp [List.lookup, hname, beq_false_of_ne hname]

/-- The results of operators that are bytes are extended with zeros. -/
theorem high_part_valuation {id : Nat} {memory : Memory}
    (hbody : Body (e.valuation memory) 0 ts) (hlength : ts.length = e.results.length)
    (hu : u.id = ts.length)
    (hbyte : (Operand.temp id).width (ts ++ [u]) outcomeTable = .byte) :
    Side.high.part (e.valuation memory (.temp id)) = 0 := by
  obtain hle | hlt := Nat.lt_or_ge id e.results.length |>.symm
  · have hnone : e.results[id]? = none := List.getElem?_eq_none hle
    show Side.high.part (e.results[id]?.getD 0) = 0
    rw [hnone]
    rfl
  · have hat : ts[id]? = some ts[id] := List.getElem?_eq_getElem (hlength ▸ hlt)
    have hid : ts[id].id = id := (hbody.id id _ hat).trans (Nat.zero_add id)
    cases hfind : Triple.find? (ts ++ [u]) id with
    | none =>
      have hnot := List.find?_eq_none.mp hfind ts[id]
        (List.mem_append_left _ (List.mem_of_getElem? hat))
      simp [hid] at hnot
    | some t =>
      have htid : t.id = id := by simpa using List.find?_some hfind
      simp only [Operand.width, hfind] at hbyte
      obtain ht | ht := List.mem_append.mp (List.mem_of_find?_eq_some hfind)
      · have hextended := (hbody.node t ht).extended hbyte
        rwa [htid] at hextended
      · rw [List.mem_singleton.mp ht] at htid
        omega

/-- At the start the machine is as the record says: no register is recorded, nothing is saved, and
the variable is where it should be. -/
theorem agrees_entry (hsp : m.sp = stackTop)
    (haddresses : m.addresses = (ofSymbols outcomeTable).addresses)
    (hbody : Body (e.valuation m.memory) 0 ts) (hlength : ts.length = e.results.length)
    (hts : (e.unfolded []).1 = ts) : Agrees (e.valuation m.memory) e.program.entry m := by
  -- The variable is not on the stack.
  have haway : dataBase ∉ stackArea (e.program.entry.stackBase m) ∧
      dataBase + 1 ∉ stackArea (e.program.entry.stackBase m) := by
    rw [show e.program.entry.stackBase m = stackTop from hsp]
    decide
  refine { literal := fun _ => rfl, extended := ?_, declared := fun _ h => (by cases h),
           address := ?_, variableLow := ?_, variableHigh := ?_, operand := fun _ h => (by cases h),
           registers := ?_, saved := fun _ h => (by cases h) }
  · intro o ho hbyte
    -- What is a byte has nothing above it: no other variable is looked up, and a triple whose
    -- result is a byte has a byte for its value.
    cases o with
    | const _ => cases ho
    | var name =>
      have hname : name ≠ "w" := by
        rintro rfl
        cases hbyte
      show Side.high.part (if name = "w" then _ else _) = 0
      rw [if_neg hname]
      rfl
    | temp id =>
      refine high_part_valuation (u := e.store) hbody hlength ?_ ?_
      · rw [← hts]
        rfl
      · rw [← hts]
        exact of_decide_eq_true hbyte
  · intro name a ha
    exact ((addressOf?_eq_some_iff haddresses).mp ha).2
  · intro name a ha
    obtain ⟨rfl, rfl⟩ := (addressOf?_eq_some_iff haddresses).mp ha
    refine ⟨haway.1, ?_⟩
    exact (low_part_readWord m.memory dataBase).symm
  · intro name a ha _
    obtain ⟨rfl, rfl⟩ := (addressOf?_eq_some_iff haddresses).mp ha
    refine ⟨haway.2, ?_⟩
    exact (high_part_readWord m.memory dataBase).symm
  · intro r _
    cases r <;> trivial

/-- The code leaves the value in the variable. The triples are those of the expression, each
computes its part of the value, and the last one stores it. -/
theorem leaves_value (he : e.Consistent) (hplaced : e.isPlaced = true) {code : List Instr}
    (hcode : e.program.instructions = .ok code) (hsp : m.sp = stackTop)
    (haddresses : m.addresses = (ofSymbols outcomeTable).addresses) :
    Leaves (fun a => a = dataBase ∨ a = dataBase + 1) m dataBase (BitVec.ofInt 16 e.value) code ∧
      SkipsClear code := by
  obtain ⟨ts, hts, hlength, hbody, hroot⟩ := exists_unfolded (ρ := e.valuation m.memory)
    (fun _ => rfl) he [] (by simp) (fun i w hi => by
      show e.results[[].length + i]?.getD 0 = w
      rw [List.length_nil, Nat.zero_add, hi]
      rfl)
  have hprogram : e.program.triples = ts ++ [e.store] := by
    rw [program, hts]
    rfl
  have hstack : ∀ a, a = dataBase ∨ a = dataBase + 1 → a ∉ stackArea m.sp := by
    rw [hsp]
    rintro a (rfl | rfl) <;> decide
  have hplain : Plain (ts ++ [e.store]) (.of e.root) :=
    ⟨_, rfl, hroot.plain, isMemoryOperand_eq_false (fun t ht => (hbody.node t ht).operator) rfl _⟩
  -- What was checked is the selection of these triples.
  have hplaced' : placedFrom e.store (.of e.root) 0 ts e.program.entry = true := by
    rw [isPlaced, hts] at hplaced
    exact hplaced
  have happlies : ∀ t ∈ ts, Applies (e.valuation m.memory) (ts ++ [e.store]) t := fun t ht =>
    applies_of_body hbody rfl ht
  have harrives :
      Arrives (e.valuation m.memory) (fun a => a = dataBase ∨ a = dataBase + 1) m m.memory
        e.program.entry m :=
    .start (agrees_entry hsp haddresses hbody hlength hts) rfl rfl RegisterFile.matched_empty
  have hw : m.addressOf? "w" = some dataBase := (addressOf?_eq_some_iff haddresses).mpr ⟨rfl, rfl⟩
  have hvariables (name : String) (a : Word) (ha : m.addressOf? name = some a) :
      (a = dataBase ∨ a = dataBase + 1) ∧ (a + 1 = dataBase ∨ a + 1 = dataBase + 1) := by
    rw [((addressOf?_eq_some_iff haddresses).mp ha).2]
    exact ⟨.inl rfl, .inr rfl⟩
  have hselect := after_selectFrom hw hstack hvariables e.moves_store rfl hplain rfl
    happlies harrives
    e.program.layered_entry hprogram hplaced'
  have hall : After selectAll e.program.entry fun _ s =>
      Leaves (fun a => a = dataBase ∨ a = dataBase + 1) m dataBase
        (BitVec.ofInt 16 e.value) s.code := by
    rw [selectAll, after_bind, after_get, after_bind]
    show After (selectFrom 0 e.program.triples) _ _
    rw [hprogram, ← hroot.value]
    exact hselect.mono fun _ s hs => hs.1.after_settleStack hw hstack hvariables hs.2
  refine ⟨?_, (Program.tidy_instructions ?_ hcode).skips⟩
  · unfold Program.instructions at hcode
    split at hcode
    next s hs =>
      cases hcode
      exact hall _ s hs
    · cases hcode
  · rw [hprogram]
    refine List.forall_mem_append.mpr ⟨fun t ht name hname => (happlies t ht).names hname, ?_⟩
    refine List.forall_mem_singleton.mpr fun name hname => ?_
    obtain ⟨⟨⟩⟩ | hname := List.mem_cons.mp hname
    · rfl
    · have hvar := hroot.plain
      rw [show (e.unfolded []).2 = .var name from (List.mem_singleton.mp hname).symm] at hvar
      cases hvar

/-- If folding and code take the same widths, counts of shifts survive in a byte, no `>=` with a
literal on the left meets an equal byte (`Consistent`), and every operation finds its operands where
it reads them (`isPlaced`), then the code leaves what the expression folds to, as a word, in the
variable, whatever was in registers and memory before. -/
theorem run_program_eq_fold (e : LiteralExpr) (he : e.Consistent) (hplaced : e.isPlaced = true)
    {code : List Instr} (hcode : e.program.instructions = .ok code)
    (hlength : code.length ≤ Machine.maxSteps) (m : Machine) (hsp : m.sp = stackTop)
    (haddresses : m.addresses = (ofSymbols e.program.symbols).addresses) (d : Draft) :
    ∃ value, Draft.acceptAll e.events d = .ok () { d with stack := .const value :: d.stack } ∧
      (m.run code).fault = none ∧
      (m.run code).machine.word "w" 0 = .ok (BitVec.ofInt 16 value) := by
  obtain ⟨⟨m', hwalks, hsp', haddresses', hvalue⟩, hskips⟩ :=
    leaves_value he hplaced hcode hsp haddresses
  obtain ⟨n, hn, hexec⟩ := hwalks.exec
  have hrun := run_of_exec hskips hexec (Nat.le_trans hn hlength) (hsp'.trans hsp)
  refine ⟨e.value, e.acceptAll_events d, by rw [hrun], ?_⟩
  have haddress : m'.addressOf? "w" = some dataBase :=
    (addressOf?_eq_some_iff (haddresses'.trans haddresses)).mpr ⟨rfl, rfl⟩
  rw [hrun, ← hvalue]
  simp only [word, wordAddress, byteAddress, haddress]
  rfl

/-- `~((300 - 5) ^ (7 << 2))`, all of it but the shift at the width of words. -/
def mixedExpr : LiteralExpr :=
  .inverse (.binary .xor (by decide) (.binary .sub (by decide) (.literal 300) (.literal 5))
    (.binary .shl (by decide) (.literal 7) (.literal 2)))

/-- The expression meets all conditions, and its code stores what it folds to. -/
theorem run_program_eq_fold_mixedExpr :
    mixedExpr.Consistent ∧ mixedExpr.isPlaced = true ∧ ∃ code value,
      mixedExpr.program.instructions = .ok code ∧
      Draft.acceptAll mixedExpr.events {} = .ok () { stack := [.const value] } ∧
      ((ofSymbols outcomeTable).run code).machine.word "w" 0 = .ok (BitVec.ofInt 16 value) := by
  have hconsistent : mixedExpr.Consistent := by decide
  have hplaced : mixedExpr.isPlaced = true := by decide +kernel
  refine ⟨hconsistent, hplaced, ?_⟩
  obtain ⟨value, hfold, -, hword⟩ := run_program_eq_fold mixedExpr hconsistent hplaced rfl
    (by decide +kernel) (ofSymbols outcomeTable) rfl rfl {}
  exact ⟨_, value, rfl, hfold, hword⟩

/-- What the code of the expression leaves: the fault of its run and the word in the variable. -/
def outcome (e : LiteralExpr) : Except Failure (Option Fault × Except AccessError Word) :=
  e.program.instructions.map fun code =>
    let ended := (ofSymbols outcomeTable).run code
    (ended.fault, ended.machine.word "w" 0)

/-- The expression folds to a value, and its code, which runs to its end, stores another. -/
def Departs (e : LiteralExpr) (folded : Int) (stored : Word) : Prop :=
  Draft.acceptAll e.events {} = .ok () { stack := [.const folded] } ∧
    e.outcome = .ok (none, .ok stored) ∧ BitVec.ofInt 16 folded ≠ stored

theorem Departs.of_value {e : LiteralExpr} {folded : Int} {stored : Word}
    (hvalue : e.value = folded)
    (houtcome : e.outcome = .ok (none, .ok stored)) (hne : BitVec.ofInt 16 folded ≠ stored) :
    e.Departs folded stored :=
  ⟨hvalue ▸ e.acceptAll_events {}, houtcome, hne⟩

/-- `(1000 - 995) + 255`. -/
def wideExpr : LiteralExpr :=
  .binary .add (by decide) (.binary .sub (by decide) (.literal 1000) (.literal 995)) (.literal 255)

/-- `1000 >> 256`. -/
def countExpr : LiteralExpr :=
  .binary .shr (by decide) (.literal 1000) (.literal 256)

/-- `5 >= (2 + 3)`. -/
def equalExpr : LiteralExpr :=
  .binary .ge (by decide) (.literal 5) (.binary .add (by decide) (.literal 2) (.literal 3))

/-- `(((5 ^ 0) ^ -1) + (1000 + -1)) + (6 ^ 0)`. -/
def signExpr : LiteralExpr :=
  .binary .add (by decide)
    (.binary .add (by decide)
      (.binary .xor (by decide)
        (.binary .xor (by decide) (.literal 5) (.literal 0)) (.literal (-1)))
      (.binary .add (by decide) (.literal 1000) (.literal (-1))))
    (.binary .xor (by decide) (.literal 6) (.literal 0))

/-- `(0 - (((5 - 0) | (5 >> 0)) + (5 == 0))) & (~0 > (~(0 & 0) | 1000))`. -/
def crowdedExpr : LiteralExpr :=
  .binary .and (by decide)
    (.binary .sub (by decide) (.literal 0)
      (.binary .add (by decide)
        (.binary .or (by decide)
          (.binary .sub (by decide) (.literal 5) (.literal 0))
          (.binary .shr (by decide) (.literal 5) (.literal 0)))
        (.binary .eq (by decide) (.literal 5) (.literal 0))))
    (.binary .gt (by decide) (.inverse (.literal 0))
      (.binary .or (by decide)
        (.inverse (.binary .and (by decide) (.literal 0) (.literal 0))) (.literal 1000)))

/-- Each condition is needed. The difference of two words folds to 5, a byte, but its triple is a
word and so is that of the sum. The count 256 is zero in a byte. `5 >= 5` is tested as `5 > 5`. The
last two expressions are consistent: in one, `-1` is taken from a pair with `0x00FF`, in the other
the zero above `~0` is overwritten before the words are compared. -/
theorem run_program_ne_fold :
    wideExpr.Departs 4 260 ∧ countExpr.Departs 0 1000 ∧ equalExpr.Departs 1 0 ∧
      (signExpr.Consistent ∧ signExpr.isPlaced = false ∧ signExpr.Departs 1255 1511) ∧
      crowdedExpr.Consistent ∧ crowdedExpr.isPlaced = false ∧ crowdedExpr.Departs 0 1 := by
  refine ⟨.of_value ?_ ?_ ?_, .of_value ?_ ?_ ?_, .of_value ?_ ?_ ?_,
    ⟨?_, ?_, .of_value ?_ ?_ ?_⟩, ?_, ?_, .of_value ?_ ?_ ?_⟩
  all_goals decide +kernel

end Program

end LiteralExpr

end Accumulator
