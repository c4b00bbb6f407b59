import Mathlib
import Accumulator.Proofs.Draft

/-!
# Expressions of literals

A draft folds an operator on literals at once. What a whole expression of literals comes to is said
here in exact arithmetic: `LiteralExpr.value` reduces the operands of each operator to the width
they need, carries the operator out on integers of any size, and reduces the result. A draft that
takes the events of the expression ends with that one literal on its stack and with nothing else
changed.

Folding works on 32 bits, with the operands cut to their width before and the result after. It
comes to the same as if the operator were carried out at that width (`fold?_eq_foldBits?`), and this
is what exact arithmetic is compared with.
-/

namespace Accumulator

/-- An expression of literals. -/
inductive LiteralExpr where
  | literal (value : Int)
  | inverse (x : LiteralExpr)
  | binary (op : ExprOp) (hop : op ≠ .inv) (x y : LiteralExpr)

/-- The result of an operator on natural numbers, before it is reduced to a width. A comparison
gives 0 or 1. The complement looks at the left operand only. -/
def ExprOp.exact (op : ExprOp) (a b : Nat) : Int :=
  match op with
  | add => a + b
  | sub => a - b
  | shl => a * 2 ^ b
  | shr => a / 2 ^ b
  | xor => (a ^^^ b : Nat)
  | and => (a &&& b : Nat)
  | or => (a ||| b : Nat)
  | inv => -1 - a
  | eq => if a = b then 1 else 0
  | ne => if a ≠ b then 1 else 0
  | gt => if a > b then 1 else 0
  | lt => if a < b then 1 else 0
  | ge => if a ≥ b then 1 else 0
  | le => if a ≤ b then 1 else 0

/-- Eight bits are enough for literals between -128 and 255, sixteen are taken for others. -/
def neededBits (values : List Int) : Nat :=
  if ∀ v ∈ values, -128 ≤ v ∧ v ≤ 255 then 8 else 16

namespace LiteralExpr

/-- The events of an expression, in postfix order. -/
def events : LiteralExpr → List Event
  | literal value => [.literal value]
  | inverse x => x.events ++ [.operator .inv]
  | binary op _ x y => x.events ++ y.events ++ [.operator op]

/-- The value of an expression. -/
def value : LiteralExpr → Int
  | literal value => value
  | inverse x =>
    let modulus := 2 ^ neededBits [x.value]
    ExprOp.inv.exact (x.value % modulus).toNat 0 % modulus
  | binary op _ x y =>
    let modulus := 2 ^ neededBits [x.value, y.value]
    op.exact (x.value % modulus).toNat (y.value % modulus).toNat % modulus

end LiteralExpr

/-! ## Numbers of 32 bits -/

section Wide

variable {w : Width}

/-- A mask leaves the bits of its width, with zeros above them. -/
theorem and_mask (v : BitVec 32) :
    v &&& BitVec.ofNat 32 w.mask = (v.setWidth w.bits).setWidth 32 := by
  have hmask : w.mask < 2 ^ 32 ∧ w.mask = 2 ^ w.bits - 1 := by cases w <;> decide
  apply BitVec.eq_of_toNat_eq
  rw [BitVec.toNat_and, BitVec.toNat_ofNat, Nat.mod_eq_of_lt hmask.1, hmask.2,
    Nat.and_two_pow_sub_one_eq_mod, BitVec.toNat_setWidth, BitVec.toNat_setWidth]
  have hlt : v.toNat % 2 ^ w.bits < 2 ^ 32 := Nat.lt_of_le_of_lt (Nat.mod_le _ _) v.isLt
  exact (Nat.mod_eq_of_lt hlt).symm

theorem bits_le_wide : w.bits ≤ 32 := by
  cases w <;> decide

/-- A literal is cut off to 32 bits first, which makes no difference to a byte or a word. -/
theorem setWidth_ofInt_wide (a : Int) :
    (BitVec.ofInt 32 a).setWidth w.bits = BitVec.ofInt w.bits a := by
  apply BitVec.eq_of_toNat_eq
  rw [BitVec.toNat_setWidth, BitVec.toNat_ofInt, BitVec.toNat_ofInt]
  cases w with
  | byte =>
    show (a % 2 ^ 32).toNat % 2 ^ 8 = (a % 2 ^ 8).toNat
    omega
  | word =>
    show (a % 2 ^ 32).toNat % 2 ^ 16 = (a % 2 ^ 16).toNat
    omega

theorem setWidth_wide (a : BitVec w.bits) : (a.setWidth 32).setWidth w.bits = a := by
  rw [BitVec.setWidth_setWidth_of_le a bits_le_wide, BitVec.setWidth_eq]

theorem toNat_wide (a : BitVec w.bits) : (a.setWidth 32).toNat = a.toNat :=
  BitVec.toNat_setWidth_of_le bits_le_wide

/-- A byte or a word is no negative number of 32 bits. -/
theorem toInt_wide (a : BitVec w.bits) : (a.setWidth 32).toInt = a.toNat := by
  have ha := a.isLt
  have hbits : 2 ^ w.bits ≤ 2 ^ 16 := by cases w <;> decide
  rw [BitVec.toInt_eq_toNat_of_lt (by rw [toNat_wide]; omega), toNat_wide]

theorem setWidth_truth_wide (b : Bool) : (truth b : BitVec 32).setWidth w.bits = truth b := by
  cases w <;> cases b <;> rfl

/-- An operator on bytes or words among 32 bits gives, as far as the bits of the width go, what it
gives on bytes or words alone: carries and borrows only travel upwards, and a shift by more places
than there are leaves zero either way. -/
theorem setWidth_onWide? (op : Op) (a b : BitVec w.bits) :
    (op.onWide? (a.setWidth 32) (b.setWidth 32)).map (BitVec.setWidth w.bits) = op.onBits? a b := by
  have hw : w.bits ≤ 32 := bits_le_wide
  cases op with
  | add =>
    apply congrArg some
    rw [BitVec.setWidth_add _ _ hw, setWidth_wide, setWidth_wide]
  | sub =>
    apply congrArg some
    -- The difference of 32 bits and the right operand add up to the left one, also when cut off.
    have hsum : (a.setWidth 32 - b.setWidth 32 + b.setWidth 32).setWidth w.bits = a := by
      rw [BitVec.sub_add_cancel, setWidth_wide]
    rw [BitVec.setWidth_add _ _ hw, setWidth_wide] at hsum
    rw [BitVec.eq_sub_iff_add_eq, hsum]
  | shl =>
    apply congrArg some
    rw [Op.checkedShl?, toNat_wide]
    split
    next hcount =>
      apply BitVec.eq_of_toNat_eq
      show ((a.setWidth 32 <<< b.toNat).setWidth w.bits).toNat = (a <<< b.toNat).toNat
      rw [BitVec.toNat_setWidth, BitVec.toNat_shiftLeft, BitVec.toNat_shiftLeft, toNat_wide,
        Nat.mod_mod_of_dvd _ (Nat.pow_dvd_pow 2 hw)]
    next hcount =>
      rw [BitVec.shiftLeft_eq_zero (by omega)]
      exact BitVec.setWidth_zero w.bits 32
  | shr =>
    apply congrArg some
    rw [Op.checkedShr?, toNat_wide]
    split
    next hcount =>
      show (a.setWidth 32 >>> b.toNat).setWidth w.bits = a >>> b.toNat
      rw [← BitVec.setWidth_ushiftRight hw, setWidth_wide]
    next hcount =>
      rw [BitVec.ushiftRight_eq_zero (by omega)]
      exact BitVec.setWidth_zero w.bits 32
  | xor =>
    apply congrArg some
    rw [BitVec.setWidth_xor, setWidth_wide, setWidth_wide]
  | and =>
    apply congrArg some
    rw [BitVec.setWidth_and, setWidth_wide, setWidth_wide]
  | or =>
    apply congrArg some
    rw [BitVec.setWidth_or, setWidth_wide, setWidth_wide]
  | eq | ne | gt | lt | ge | le =>
    apply congrArg some
    rw [setWidth_truth_wide]
    simp only [BitVec.ult, BitVec.ule, toNat_wide, bne, BEq.beq, ← BitVec.toNat_inj]
  | _ => rfl

end Wide

namespace Op

/-- Folding, carried out at the width of the literals. -/
def foldBits? (op : Op) (lhs : Int) (rhs : Option Int) : Option Int :=
  let a := BitVec.ofInt (foldWidth lhs rhs).bits lhs
  let result :=
    if op = inv then some (~~~a)
    else rhs.bind fun r => op.onBits? a (BitVec.ofInt (foldWidth lhs rhs).bits r)
  result.map fun v => (v.toNat : Int)

/-- Literals are folded in 32 bits, between two masks, with the results of their width: the
complement sets all bits above it and the mask takes them away. -/
theorem fold?_eq_foldBits? (op : Op) (lhs : Int) (rhs : Option Int) :
    op.fold? lhs rhs = op.foldBits? lhs rhs := by
  have hresult (result : Option (BitVec 32)) :
      result.map (fun v => (v &&& BitVec.ofNat 32 (foldWidth lhs rhs).mask).toInt) =
        (result.map (BitVec.setWidth (foldWidth lhs rhs).bits)).map fun v => (v.toNat : Int) := by
    rw [Option.map_map]
    refine congrArg (result.map ·) (funext fun v => ?_)
    rw [and_mask, toInt_wide]
    rfl
  rw [fold?, foldBits?, hresult]
  apply congrArg
  rw [and_mask, setWidth_ofInt_wide]
  split
  · rw [Option.map_some, BitVec.setWidth_not bits_le_wide, setWidth_wide]
  · cases rhs with
    | none => rfl
    | some r =>
      rw [Option.bind_some, Option.bind_some, and_mask, setWidth_ofInt_wide, setWidth_onWide?]

end Op

/-! ## One operator -/

/-- A number below the modulus is left alone by the reduction. -/
theorem toNat_emod {n : Nat} (x : BitVec n) : (x.toNat : Int) % 2 ^ n = x.toNat :=
  Int.emod_eq_of_lt (Int.natCast_nonneg _) (by exact_mod_cast x.isLt)

theorem toNat_truth {n : Nat} (hn : 0 < n) {b : Bool} {p : Prop} [Decidable p] (h : b = true ↔ p) :
    ((truth b : BitVec n).toNat : Int) = (if p then 1 else 0) % 2 ^ n := by
  have hone : 1 % 2 ^ n = 1 := Nat.mod_eq_of_lt (Nat.one_lt_two_pow (Nat.pos_iff_ne_zero.mp hn))
  rw [← toNat_emod, truth]
  by_cases hp : p
  · simp [h.mpr hp, hp, hone]
  · simp [Bool.eq_false_iff.mpr (mt h.mp hp), hp]

/-- On numbers of one width an operator gives the exact result, reduced to that width. By cases on
the operator; only a difference can be below zero, and only a sum, a difference and a shift to the
left can be too large. -/
theorem onBits?_exact {n : Nat} (hn : 0 < n) {op : ExprOp} (hop : op ≠ .inv) (a b : BitVec n) :
    ∃ v, op.toOp.onBits? a b = some v ∧ (v.toNat : Int) = op.exact a.toNat b.toNat % 2 ^ n := by
  cases op with
  | inv => exact absurd rfl hop
  | add =>
    refine ⟨a + b, rfl, ?_⟩
    rw [BitVec.toNat_add]
    rfl
  -- The difference of bits adds the modulus before it subtracts, and the reduction takes it away
  -- again.
  | sub =>
    refine ⟨a - b, rfl, ?_⟩
    have hb : b.toNat ≤ 2 ^ n := Nat.le_of_lt b.isLt
    show _ = ((a.toNat : Int) - b.toNat) % 2 ^ n
    rw [BitVec.toNat_sub, Int.natCast_emod, Int.natCast_add, Int.ofNat_sub hb]
    rw [show ((2 ^ n : Nat) : Int) - b.toNat + a.toNat = a.toNat - b.toNat + (2 ^ n : Nat) by omega]
    rw [Int.add_emod_right]
    rfl
  | shl =>
    refine ⟨a <<< b.toNat, rfl, ?_⟩
    rw [BitVec.toNat_shiftLeft, Nat.shiftLeft_eq]
    rfl
  | shr =>
    refine ⟨a >>> b.toNat, rfl, ?_⟩
    rw [← toNat_emod, BitVec.toNat_ushiftRight, Nat.shiftRight_eq_div_pow]
    rfl
  | xor =>
    refine ⟨a ^^^ b, rfl, ?_⟩
    rw [← toNat_emod, BitVec.toNat_xor]
    rfl
  | and =>
    refine ⟨a &&& b, rfl, ?_⟩
    rw [← toNat_emod, BitVec.toNat_and]
    rfl
  | or =>
    refine ⟨a ||| b, rfl, ?_⟩
    rw [← toNat_emod, BitVec.toNat_or]
    rfl
  | eq => exact ⟨_, rfl, toNat_truth hn (by rw [beq_iff_eq, BitVec.toNat_inj])⟩
  | ne => exact ⟨_, rfl, toNat_truth hn (by rw [bne_iff_ne, Ne, Ne, BitVec.toNat_inj])⟩
  | gt => exact ⟨_, rfl, toNat_truth hn decide_eq_true_iff⟩
  | lt => exact ⟨_, rfl, toNat_truth hn decide_eq_true_iff⟩
  | ge => exact ⟨_, rfl, toNat_truth hn decide_eq_true_iff⟩
  | le => exact ⟨_, rfl, toNat_truth hn decide_eq_true_iff⟩

theorem toNat_not_exact {n : Nat} (a : BitVec n) :
    ((~~~a).toNat : Int) = ExprOp.inv.exact a.toNat 0 % 2 ^ n := by
  have ha := a.isLt
  show _ = (-1 - (a.toNat : Int)) % 2 ^ n
  rw [← toNat_emod, BitVec.toNat_not, ← Int.add_emod_right (-1 - (a.toNat : Int))]
  have hcast : ((2 ^ n : Nat) : Int) = 2 ^ n := by simp
  congr 1
  omega

theorem bits_ofConstant (a : Int) : (Width.ofConstant a).bits = neededBits [a] := by
  unfold Width.ofConstant neededBits
  simp only [List.forall_mem_singleton]
  split <;> rfl

/-- Two literals are as wide as the wider one needs to be. -/
theorem bits_max_ofConstant (a b : Int) :
    ((Width.ofConstant a).max (Width.ofConstant b)).bits = neededBits [a, b] := by
  unfold Width.ofConstant neededBits
  simp only [List.forall_mem_cons, List.not_mem_nil, false_implies, implies_true, and_true]
  by_cases ha : -128 ≤ a ∧ a ≤ 255 <;> by_cases hb : -128 ≤ b ∧ b ≤ 255 <;> simp [ha, hb] <;> rfl

/-- The width is that of a byte or that of a word. -/
theorem neededBits_cases (values : List Int) : neededBits values = 8 ∨ neededBits values = 16 := by
  unfold neededBits
  split
  · exact .inl rfl
  · exact .inr rfl

theorem neededBits_pos (values : List Int) : 0 < neededBits values := by
  rcases neededBits_cases values with h | h <;> rw [h] <;> decide

/-- The bits of a literal as a number, reduced to their width. -/
theorem toNat_ofInt (n : Nat) (a : Int) : (BitVec.ofInt n a).toNat = (a % 2 ^ n).toNat := by
  rw [BitVec.toNat_ofInt]
  simp

/-- Two literals fold to the exact result at the width they need. -/
theorem fold?_binary {op : ExprOp} (hop : op ≠ .inv) (a b : Int) :
    op.toOp.fold? a (some b) = some (op.exact (a % 2 ^ neededBits [a, b]).toNat
      (b % 2 ^ neededBits [a, b]).toNat % 2 ^ neededBits [a, b]) := by
  have hfold : op.toOp.fold? a (some b) =
      (op.toOp.onBits? (BitVec.ofInt ((Width.ofConstant a).max (Width.ofConstant b)).bits a)
        (BitVec.ofInt _ b)).map fun v => (v.toNat : Int) := by
    rw [Op.fold?_eq_foldBits?, Op.foldBits?, if_neg (by cases op <;> simp_all [ExprOp.toOp])]
    rfl
  rw [hfold, bits_max_ofConstant]
  obtain ⟨v, hv, hexact⟩ := onBits?_exact (neededBits_pos [a, b]) hop (BitVec.ofInt _ a)
    (BitVec.ofInt _ b)
  rw [hv, Option.map_some, hexact, toNat_ofInt, toNat_ofInt]

/-- The complement of a literal folds to the exact result at the width it needs. -/
theorem fold?_inverse (a : Int) :
    Op.fold? .inv a none = some (ExprOp.inv.exact (a % 2 ^ neededBits [a]).toNat 0 %
      2 ^ neededBits [a]) := by
  have hfold : Op.fold? .inv a none =
      some ((~~~BitVec.ofInt (Width.ofConstant a).bits a).toNat : Int) :=
    Op.fold?_eq_foldBits? .inv a none
  rw [hfold, bits_ofConstant, toNat_not_exact, toNat_ofInt]

/-! ## Whole expressions -/

/-- A reduced result is a number of sixteen bits. -/
theorem emod_neededBits (x : Int) (values : List Int) :
    0 ≤ x % 2 ^ neededBits values ∧ x % 2 ^ neededBits values ≤ 65535 := by
  rcases neededBits_cases values with h | h <;> rw [h] <;> omega

namespace LiteralExpr

/-- The complement of a literal on the stack. -/
theorem accept_inverse (a : Int) (stack : List Operand) (d : Draft) :
    Draft.accept (.operator .inv) { d with stack := .const a :: stack } =
      .ok () { d with stack := .const (inverse (.literal a)).value :: stack } := by
  have hvalue : Draft.folded? .inv (.const a) none = some (inverse (.literal a)).value :=
    fold?_inverse a
  show Draft.operator .inv _ = _
  rw [Draft.operator, if_pos (show Op.inv.isUnary = true from rfl), pure_bind]
  refine (bind_of_ok (Draft.popOperand_run (.operator .inv) (.const a) stack)).trans ?_
  simp only [hvalue]
  rfl

/-- The events of an expression put its value on the stack, whatever comes next. -/
theorem acceptAll_events_append (e : LiteralExpr) (rest : List Event) (d : Draft) :
    Draft.acceptAll (e.events ++ rest) d =
      Draft.acceptAll rest { d with stack := .const e.value :: d.stack } := by
  induction e generalizing rest d with
  | literal value => rfl
  | inverse x ih =>
    rw [events, List.append_assoc, ih]
    exact Draft.acceptAll_cons (accept_inverse x.value d.stack d)
  | binary op hop x y ihx ihy =>
    rw [events, List.append_assoc, List.append_assoc, ihx, ihy]
    refine Draft.acceptAll_cons (Draft.operator_folded (d := d) ?_
      (fold?_binary hop x.value y.value))
    cases op <;> first | rfl | exact absurd rfl hop

/-- The events of an expression alone: the value is on top of the stack, and no triple is added. -/
theorem acceptAll_events (e : LiteralExpr) (d : Draft) :
    Draft.acceptAll e.events d = .ok () { d with stack := .const e.value :: d.stack } := by
  have hfold := e.acceptAll_events_append [] d
  rwa [List.append_nil] at hfold

/-- An expression of literals folds to one literal, in a draft of any kind, and an operator gives a
number of sixteen bits. -/
theorem acceptAll_pushes_value (e : LiteralExpr) (d : Draft) :
    Draft.acceptAll e.events d = .ok () { d with stack := .const e.value :: d.stack } ∧
      ((∃ value, e = .literal value) ∨ 0 ≤ e.value ∧ e.value ≤ 65535) := by
  refine ⟨e.acceptAll_events d, ?_⟩
  cases e with
  | literal value => exact .inl ⟨value, rfl⟩
  | inverse x => exact .inr (emod_neededBits _ _)
  | binary op hop x y => exact .inr (emod_neededBits _ _)

end LiteralExpr

end Accumulator
