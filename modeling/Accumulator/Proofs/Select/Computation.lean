import Accumulator.Proofs.Select.Loading
import Accumulator.Proofs.Select.Placement

/-!
# What is placed, and what it computes

An operation computes a word from the values in the places it reads (`Operation.result`). The
selector places operands so that this is the result of the triple, whichever operand it puts where
and whatever constant it compares with (`Fits`).
-/

namespace Accumulator.Select

variable {t : Triple} {x y v : Value} {ρ : Valuation} {α β : Type}

/-- The low byte of a value. -/
def lowOf (ρ : Valuation) (v : Value) : Byte := Side.low.part (ρ v)

/-- The low part of a word is its low byte, as a truncation. -/
theorem low_part_eq (w : Word) : Side.low.part w = w.setWidth 8 :=
  (BitVec.setWidth_eq_extractLsb' (by decide)).symm

theorem lowOf_eq (ρ : Valuation) (v : Value) : lowOf ρ v = (ρ v).setWidth 8 := low_part_eq _

/-- A truth value is the same number in a byte and in a word. -/
theorem setWidth_truth (b : Bool) : (truth b : Byte).setWidth 16 = truth b := by
  cases b <;> rfl

/-- A second operand that is no register is the literal it stands for. -/
def Source.Gives (y : Value) : Source → Prop
  | reg _ => True
  | imm value => ∃ c, y = .const c ∧ value = lowByte c

/-- A shift in one direction or the other. -/
def shiftBits {n : Nat} (left : Bool) (x : BitVec n) (count : Nat) : BitVec n :=
  if left then x <<< count else x >>> count

namespace Operation

/-- What the selector sees to, besides the places. -/
def Valid : Operation → Prop
  | combine op _ source y => op ≠ .cmp ∧ source.Gives y
  | subtractFrom x source y => x ≠ y ∧ source.Gives y
  | compare _ _ source y => source.Gives y
  | addWord p _ _ => p = .h ∨ p = .d ∨ p = .b
  | combineWord op p _ _ => isBitwise op = true ∧ (p = .d ∨ p = .b)
  | combineLiteral op _ _ => isBitwise op = true
  | _ => True

/-- What an operation computes from the values in its places. -/
def result (ρ : Valuation) : Operation → Word
  | keep x => (lowOf ρ x).setWidth 16
  | invert x => (~~~lowOf ρ x).setWidth 16
  | shiftOne left x => (shiftBits left (lowOf ρ x) 1).setWidth 16
  | shift left x count => (shiftBits left (lowOf ρ x) (lowOf ρ count).toNat).setWidth 16
  | combine op x _ y => (Machine.aluResult op (lowOf ρ x) (lowOf ρ y)).1.setWidth 16
  | subtractFrom x _ y => (lowOf ρ y - lowOf ρ x).setWidth 16
  | compare cond x _ y => (truth (cond.tells (lowOf ρ x) (lowOf ρ y)) : Byte).setWidth 16
  | invertWord x => ~~~ρ x
  | double n x => ρ x <<< n
  | shiftWord left x count => shiftBits left (ρ x) (lowOf ρ count).toNat
  | addWord _ x y => ρ x + ρ y
  | combineWord op _ x y => bitwise op (ρ x) (ρ y)
  | combineLiteral op x c => bitwise op (ρ x) (BitVec.ofInt 16 c)
  | subtractWord x y => ρ x - ρ y
  | compareWord cond x y => (truth (cond.tells (ρ x) (ρ y)) : Byte).setWidth 16

end Operation

/-- The bytes that a `>=` compares differ if the left one is a literal and the right one is not the
same literal. -/
def Separated (t : Triple) (ρ : Valuation) : Prop :=
  t.op = .ge → t.width = .byte → t.lhs.isConst = true →
    ∀ rhs, t.rhs = some rhs → t.lhs ≠ rhs → lowOf ρ (.of t.lhs) ≠ lowOf ρ (.of rhs)

/-- The operation computes the result of the triple. -/
def Fits (t : Triple) (o : Operation) : Prop :=
  o.Valid ∧ ∀ ρ : Valuation, (∀ c, ρ (.const c) = BitVec.ofInt 16 c) → Separated t ρ →
    ∃ z, t.combine? (t.operands.map fun u => ρ (.of u)) = some z ∧ o.result ρ = z.setWidth 16

/-- The low byte of a literal, under a valuation that has literals right. -/
theorem lowOf_const (h : ∀ c, ρ (.const c) = BitVec.ofInt 16 c) (c : Int) :
    lowOf ρ (.const c) = lowByte c := by
  rw [lowOf, h]
  exact low_ofInt c

/-! ## Answers -/

/-- The answer of the step, if it does not fail, satisfies `P`. -/
def Returns (x : Selecting α) (P : α → Prop) : Prop :=
  ∀ s, After x s fun a _ => P a

namespace Returns

variable {P : α → Prop} {Q : β → Prop}

theorem any {x : Selecting α} : Returns x fun _ => True :=
  fun _ _ _ _ => trivial

/-- What the first step returns may be used in the second. -/
theorem bind {x : Selecting α} {f : α → Selecting β} (hx : Returns x P)
    (hf : ∀ a, P a → Returns (f a) Q) : Returns (x >>= f) Q := by
  intro s
  rw [after_bind]
  exact (hx s).mono fun a s' ha => hf a ha s'

/-- What comes before does not matter to the answer. -/
theorem seq {x : Selecting α} {f : α → Selecting β} (hf : ∀ a, Returns (f a) Q) :
    Returns (x >>= f) Q :=
  any.bind fun a _ => hf a

theorem pure {a : α} (ha : P a) : Returns (Pure.pure a : Selecting α) P :=
  fun _ => (after_pure a).mpr ha

/-- The answer may depend on the state, as long as it is right in every state. -/
theorem get {f : State → Selecting α} (h : ∀ s, Returns (f s) P) :
    Returns (MonadState.get >>= f) P :=
  any.bind fun s _ => h s

theorem ite {c : Prop} [Decidable c] {x y : Selecting α} (hx : c → Returns x P)
    (hy : ¬c → Returns y P) : Returns (if c then x else y) P := by
  split
  next hc => exact hx hc
  next hc => exact hy hc

theorem rejectIllegal (reason : Illegality) :
    Returns (Select.rejectIllegal t reason : Selecting α) P :=
  fun _ => after_reject _

theorem rejectTooComplex : Returns (Select.rejectTooComplex : Selecting α) P :=
  fun _ => after_rejectTooComplex

end Returns

/-! ## Bytes -/

/-- The second operand of a byte operation comes from where it says: a register, memory or an
immediate that has the value. -/
theorem returns_secondOperand : Returns (secondOperand y) (·.Gives y) := by
  refine .get fun s => ?_
  split
  next => exact .pure trivial
  next =>
    refine .ite (fun _ => .pure trivial) fun _ => ?_
    cases y with
    | addr o => exact .rejectTooComplex
    | of o =>
      cases o with
      | const c =>
        refine .ite (fun _ => .pure ⟨c, rfl, rfl⟩) fun _ => ?_
        exact .seq fun _ => .seq fun _ => .seq fun _ => .pure trivial
      | var name => exact .seq fun _ => .seq fun _ => .seq fun _ => .pure trivial
      | temp id => exact .rejectTooComplex

/-- Operands are exchanged only if they differ. -/
theorem ne_of_prefersSwap {s : State} (h : prefersSwap s x y = true) : x ≠ y := by
  rintro rfl
  cases hatM : s.isAtM x <;> simp [prefersSwap, hatM] at h

/-- A binary operator is applied to its two operands, at the width of the triple. -/
theorem combine?_binary {rhs : Operand} (hr : t.rhs = some rhs) (hop : isOperator t.op = true)
    (f : Operand → Word) :
    t.combine? (t.operands.map f) =
      t.op.evaluate? ((f t.lhs).setWidth _) ((f rhs).setWidth _) := by
  have hoperands : t.operands = [t.lhs, rhs] := by
    unfold Triple.operands
    rw [hr]
    cases h : t.op <;> rw [h] at hop <;> first | rfl | cases hop
  rw [hoperands]
  rfl

section Fits

variable {rhs : Operand} {o : Operation}

/-- An operation fits a triple on bytes if it computes the operator on the low bytes of the
operands. -/
theorem fits_of_byte (hwidth : t.width = .byte) (hr : t.rhs = some rhs)
    (hop : isOperator t.op = true) (hvalid : o.Valid)
    (h : ∀ ρ : Valuation, (∀ c, ρ (.const c) = BitVec.ofInt 16 c) → Separated t ρ →
      ∃ z, t.op.evaluate? (lowOf ρ (.of t.lhs)) (lowOf ρ (.of rhs)) = some z ∧
        o.result ρ = z.setWidth 16) : Fits t o := by
  refine ⟨hvalid, fun ρ hliteral hseparated => ?_⟩
  rw [combine?_binary hr hop]
  have hz := h ρ hliteral hseparated
  simp only [lowOf_eq] at hz
  rw [hwidth]
  exact hz

/-- An operation fits a triple on words if it computes the operator on the values of the
operands. -/
theorem fits_of_word (hwidth : t.width = .word) (hr : t.rhs = some rhs)
    (hop : isOperator t.op = true) (hvalid : o.Valid)
    (h : ∀ ρ : Valuation, (∀ c, ρ (.const c) = BitVec.ofInt 16 c) →
      ∃ z, t.op.evaluate? (ρ (.of t.lhs)) (ρ (.of rhs)) = some z ∧ o.result ρ = z) : Fits t o := by
  refine ⟨hvalid, fun ρ hliteral _ => ?_⟩
  rw [combine?_binary hr hop]
  rw [hwidth]
  show ∃ z : BitVec 16, t.op.evaluate? ((ρ (.of t.lhs)).setWidth 16) ((ρ (.of rhs)).setWidth 16) =
    some z ∧ o.result ρ = z.setWidth 16
  simp only [BitVec.setWidth_eq]
  exact h ρ hliteral

/-- A unary operator is applied to its operand. -/
theorem fits_invert (hwidth : t.width = .byte) (hop : t.op = .inv) (hr : t.rhs = none) :
    Fits t (.invert (.of t.lhs)) := by
  refine ⟨trivial, fun ρ _ _ => ?_⟩
  have hoperands : t.operands = [t.lhs] := by simp [Triple.operands, hop, hr]
  simp only [hoperands, List.map, Triple.combine?, hop, Operation.result, lowOf_eq]
  rw [hwidth]
  exact ⟨_, rfl, rfl⟩

/-- The complement of a word, both bytes one after the other. -/
theorem fits_invertWord (hwidth : t.width = .word) (hop : t.op = .inv) (hr : t.rhs = none) :
    Fits t (.invertWord (.of t.lhs)) := by
  refine ⟨trivial, fun ρ _ _ => ?_⟩
  have hoperands : t.operands = [t.lhs] := by simp [Triple.operands, hop, hr]
  simp only [hoperands, List.map, Triple.combine?, hop, Operation.result]
  rw [hwidth]
  refine ⟨_, rfl, ?_⟩
  show ~~~ρ (.of t.lhs) = (~~~(ρ (.of t.lhs)).setWidth 16).setWidth 16
  simp only [BitVec.setWidth_eq]

end Fits

section Binary

variable {rhs : Operand}

/-- A comparison of bytes with its operands in either order, and with a constant that was raised by
one so that the flags can tell. A literal on the left of `>=` that equals the right byte is left out
(`Separated`). -/
theorem fits_compare {relation : Relation} {cheap swapped : Bool} {raised : Option Int}
    {source : Source} {secondary : Value} (hwidth : t.width = .byte) (hr : t.rhs = some rhs)
    (hrelation : t.op.relation? = some relation)
    (hcheap : cheap = true → t.lhs ≠ rhs)
    (horient : orient relation cheap t.lhs rhs = (swapped, raised))
    (hsecondary : secondary =
      raised.elim (.of (if swapped then t.lhs else rhs)) .const)
    (hsource : source.Gives secondary) :
    Fits t (.compare (relation.condition swapped) (.of (if swapped then rhs else t.lhs)) source
      secondary) := by
  have hop : isOperator t.op = true := by
    cases h : t.op <;> rw [h] at hrelation <;> first | rfl | cases hrelation
  refine fits_of_byte hwidth hr hop hsource fun ρ hliteral hseparated => ?_
  refine ⟨_, Op.evaluate?_of_relation? hrelation _ _, ?_⟩
  have hconst (u : Operand) (k : Int) (h : u.const? = some k) : lowOf ρ (.of u) = lowByte k := by
    cases u <;> cases h
    exact lowOf_const hliteral k
  have htells : (relation.condition swapped).tells
      (if swapped then lowOf ρ (.of rhs) else lowOf ρ (.of t.lhs))
      ((raised.map lowByte).getD (if swapped then lowOf ρ (.of t.lhs) else lowOf ρ (.of rhs))) =
      relation.holds (lowOf ρ (.of t.lhs)) (lowOf ρ (.of rhs)) := by
    -- A literal is taken as it is only if the operands are exchanged.
    by_cases hinOrder : relation = .ge ∧ cheap = false
    · obtain ⟨rfl, rfl⟩ := hinOrder
      have hexact : orient .ge false t.lhs rhs = (false, none) := rfl
      cases hexact.symm.trans horient
      exact Relation.tells_condition rfl _ _
    · refine orient_tells horient (hconst t.lhs) (hconst rhs) fun hge hlhs => ?_
      have hexchanged : cheap = true := by
        rw [← Bool.not_eq_false]
        exact fun h => hinOrder ⟨hge, h⟩
      refine hseparated ?_ hwidth hlhs rhs hr (hcheap hexchanged)
      cases h : t.op <;> rw [h] at hrelation <;> cases hrelation <;> first | rfl | cases hge
  rw [← htells]
  have hprimary : lowOf ρ (.of (if swapped then rhs else t.lhs)) =
      if swapped then lowOf ρ (.of rhs) else lowOf ρ (.of t.lhs) := by
    cases swapped <;> rfl
  have hother : lowOf ρ secondary = (raised.map lowByte).getD
      (if swapped then lowOf ρ (.of t.lhs) else lowOf ρ (.of rhs)) := by
    rw [hsecondary]
    cases raised with
    | some k => exact lowOf_const hliteral k
    | none => cases swapped <;> rfl
  rw [Operation.result, hprimary, hother]

/-- The operators of the accumulator that are no comparisons, as operators of bytes. -/
theorem evaluate?_of_aluOp? {op : Op} {alu : AluOp} (halu : aluOp? op = some alu)
    (hrelation : op.relation? = none) (a b : Byte) :
    op.evaluate? a b = some (Machine.aluResult alu a b).1 ∧ alu ≠ .cmp ∧ isOperator op = true := by
  cases op <;> first | cases hrelation; done | cases halu
  all_goals exact ⟨rfl, by decide, rfl⟩

/-- Operands of a commutative operation may be exchanged. -/
theorem aluResult_comm {op : Op} {alu : AluOp} (halu : aluOp? op = some alu)
    (hcommutes : op.isCommutative = true) (hrelation : op.relation? = none) (a b : Byte) :
    (Machine.aluResult alu a b).1 = (Machine.aluResult alu b a).1 := by
  cases op <;> first | cases hrelation; done | cases hcommutes; done | cases halu
  · exact BitVec.add_comm a b
  · exact BitVec.xor_comm a b
  · exact BitVec.and_comm a b
  · exact BitVec.or_comm a b

/-- The operands are loaded in turn, the second one where the instruction finds it. -/
theorem returns_loadBytes {primary secondary : Value} {f : Source → Selecting Operation}
    {P : Operation → Prop} (hf : ∀ source, source.Gives secondary → Returns (f source) P) :
    Returns (do
      prepareSecond secondary
      loadAccumulator primary
      let source ← secondOperand secondary
      saveAccumulator true
      f source) P := by
  refine .seq fun _ => .seq fun _ => returns_secondOperand.bind fun source hsource => ?_
  exact .seq fun _ => hf source hsource

/-- What is left to do for a binary operation on bytes computes it, in all arrangements of the
operands. -/
theorem returns_placeByteBinary (hwidth : t.width = .byte) :
    Returns (placeByteBinary t) (Fits t) := by
  unfold placeByteBinary
  cases hr : t.rhs with
  | none => exact .rejectIllegal _
  | some rhs =>
    refine .get fun s => ?_
    -- A comparison is oriented by what is cheap to load; any other operator is exchanged only if it
    -- commutes, or is a difference that is negated.
    cases hrelation : t.op.relation? with
    | some relation =>
      dsimp only
      have hcheap (h : (t.op.isSwappable && prefersSwap s (.of t.lhs) (.of rhs)) = true) :
          t.lhs ≠ rhs := fun heq =>
        ne_of_prefersSwap (Bool.and_eq_true_iff.mp h).2 (congrArg Value.of heq)
      cases horient : orient relation (t.op.isSwappable && prefersSwap s (.of t.lhs) (.of rhs))
        t.lhs rhs with
      | mk swapped raised =>
        cases raised with
        | some k =>
          refine returns_loadBytes fun source hsource => ?_
          exact .pure (fits_compare hwidth hr hrelation hcheap horient rfl hsource)
        | none =>
          refine returns_loadBytes fun source hsource => ?_
          exact .pure (fits_compare hwidth hr hrelation hcheap horient rfl hsource)
    | none =>
      dsimp only
      cases hswapped : (t.op.isSwappable && prefersSwap s (.of t.lhs) (.of rhs)) with
      | false =>
        refine returns_loadBytes fun source hsource => ?_
        cases halu : aluOp? t.op with
        | none => exact .rejectIllegal _
        | some alu =>
          have heval := evaluate?_of_aluOp? halu hrelation
          simp only [Bool.false_eq_true, and_false, if_false]
          refine .pure (fits_of_byte hwidth hr (heval 0 0).2.2 ⟨(heval 0 0).2.1, hsource⟩ ?_)
          exact fun ρ _ _ => ⟨_, (heval _ _).1, rfl⟩
      | true =>
        rw [Bool.and_eq_true] at hswapped
        refine returns_loadBytes fun source hsource => ?_
        cases halu : aluOp? t.op with
        | none => exact .rejectIllegal _
        | some alu =>
          have heval := evaluate?_of_aluOp? halu hrelation
          refine .ite (fun hsub => .pure ?_) (fun hsub => .pure ?_)
          · have hne := ne_of_prefersSwap hswapped.2
            refine fits_of_byte hwidth hr (heval 0 0).2.2 ⟨fun h => hne h.symm, hsource⟩ ?_
            intro ρ _ _
            rw [hsub.1]
            exact ⟨_, rfl, rfl⟩
          · have hcommutes : t.op.isCommutative = true := by
              have hswap := hswapped.1
              have hne : t.op ≠ .sub := fun h => hsub ⟨h, rfl⟩
              simp only [Op.isSwappable, Op.isComparison, hrelation, Option.isSome_none,
                Bool.or_false, Bool.or_eq_true, beq_iff_eq] at hswap
              exact hswap.resolve_right hne
            refine fits_of_byte hwidth hr (heval 0 0).2.2 ⟨(heval 0 0).2.1, hsource⟩ ?_
            intro ρ _ _
            refine ⟨_, (heval _ _).1, ?_⟩
            rw [aluResult_comm halu hcommutes hrelation]
            rfl

/-- What is left to do for a shift of a byte computes it. Only the low byte of the count matters. -/
theorem returns_placeByteShift (hwidth : t.width = .byte) (hop : t.op = .shl ∨ t.op = .shr) :
    Returns (placeByteShift t) (Fits t) := by
  have hoperator : isOperator t.op = true := by
    obtain hop | hop := hop <;> rw [hop] <;> rfl
  have hshift (a b : Byte) : t.op.evaluate? a b = some (shiftBits (t.op = .shl) a b.toNat) := by
    obtain hop | hop := hop <;> rw [hop] <;> simp [Op.evaluate?, shiftBits]
  unfold placeByteShift
  dsimp only
  split
  next => exact .rejectIllegal _
  next hr =>
    refine .seq fun _ => .pure ?_
    refine fits_of_byte hwidth hr hoperator trivial fun ρ hliteral _ => ⟨_, hshift _ _, ?_⟩
    rw [show (Value.of (.const 0)) = .const 0 from rfl, lowOf_const hliteral]
    simp [Operation.result, shiftBits, lowByte]
  next hr =>
    refine .seq fun _ => .pure ?_
    refine fits_of_byte hwidth hr hoperator trivial fun ρ hliteral _ => ⟨_, hshift _ _, ?_⟩
    rw [show (Value.of (.const 1)) = .const 1 from rfl, lowOf_const hliteral]
    rfl
  next count _ _ hr =>
    refine .seq fun _ => .seq fun _ => .seq fun _ => .pure ?_
    exact fits_of_byte hwidth hr hoperator trivial fun ρ _ _ => ⟨_, hshift _ _, rfl⟩

/-- What is left to do for any operation on bytes computes it. -/
theorem returns_placeByte (hwidth : t.width = .byte) (hinv : t.op = .inv → t.rhs = none) :
    Returns (placeByte t) (Fits t) := by
  unfold placeByte
  cases h : t.op
  case inv => exact .seq fun _ => .pure (fits_invert hwidth h (hinv h))
  case shl => exact returns_placeByteShift hwidth (.inl h)
  case shr => exact returns_placeByteShift hwidth (.inr h)
  all_goals exact returns_placeByteBinary hwidth

end Binary

/-! ## Words -/

/-- The second operand of a word operation is in DE or BC. -/
theorem secondPair_eq (s : State) : s.secondPair = .d ∨ s.secondPair = .b := by
  unfold State.secondPair
  split
  · exact .inr rfl
  · exact .inl rfl

/-- The pair that the second of two operands is loaded into. -/
def State.pairFor (s : State) (x y : Value) (fixed : Option Pair) : Pair :=
  match fixed, [Pair.d, .b].find? (s.isInPair y ·) with
  | some p, _ => p
  | none, some p => if s.isInPair x p then s.secondPair else p
  | none, none => s.secondPair

/-- The pair that is chosen for the second operand is DE or BC, also if it is fixed. -/
theorem pairFor_eq (s : State) {fixed : Option Pair} (hfixed : ∀ p, fixed = some p → p = .d) :
    s.pairFor x y fixed = .d ∨ s.pairFor x y fixed = .b := by
  unfold State.pairFor
  cases fixed with
  | some p => exact .inl (hfixed p rfl)
  | none =>
    cases hheld : [Pair.d, .b].find? (s.isInPair y ·) with
    | none => exact secondPair_eq s
    | some p =>
      dsimp only
      split
      · exact secondPair_eq s
      · simpa using List.mem_of_find?_eq_some hheld

/-- Placing the operands of a word operation answers with the pair of the second one. -/
theorem returns_placeOperands {fixed : Option Pair} (hfixed : ∀ p, fixed = some p → p = .d) :
    Returns (placeOperands x y fixed) fun p => p = .d ∨ p = .b := by
  refine .get fun s => ?_
  extract_lets held p
  have hp : p = .d ∨ p = .b := pairFor_eq s hfixed
  clear_value p
  have hload : Returns (do loadHL x; return p) fun p => p = .d ∨ p = .b := .seq fun _ => .pure hp
  have hloads : Returns (do loadPair p y; loadHL x; return p) fun p => p = .d ∨ p = .b :=
    .seq fun _ => hload
  refine .ite (fun _ => ?_) (fun _ => .ite (fun _ => ?_)
    (fun _ => .ite (fun _ => ?_) fun _ => hloads))
  · exact .seq fun _ => .seq fun _ => .seq fun _ => .pure hp
  · exact .seq fun _ => .get fun _ => .ite (fun _ => hload) fun _ => .pure hp
  · exact .ite (fun _ => .seq fun _ => hload) fun _ => hloads

/-- The right operand is the one of the triple; without one the selection stops. -/
theorem returns_rightOperand :
    Returns (rightOperand t) fun y => ∃ rhs, t.rhs = some rhs ∧ y = .of rhs := by
  unfold rightOperand
  split
  next rhs hr => exact .pure ⟨rhs, hr, rfl⟩
  next => exact .rejectIllegal _

/-- The operands of a commutative operation come back in one order or the other. -/
theorem returns_commuteOperands :
    Returns (commuteOperands t) fun q => ∃ rhs, t.rhs = some rhs ∧
      (q = (.of t.lhs, .of rhs) ∨ q = (.of rhs, .of t.lhs)) := by
  refine .bind returns_rightOperand fun y hy => .get fun s => ?_
  obtain ⟨rhs, hr, rfl⟩ := hy
  split
  · exact .pure ⟨rhs, hr, .inr rfl⟩
  · exact .pure ⟨rhs, hr, .inl rfl⟩

section Words

variable {rhs : Operand} {q : Value × Value}

/-- What is left to do for a sum of words computes it: HL is doubled if the operands are the same,
and otherwise a pair is added. -/
theorem returns_placeWordAdd (hwidth : t.width = .word) (hop : t.op = .add) (hr : t.rhs = some rhs)
    (hq : q = (.of t.lhs, .of rhs) ∨ q = (.of rhs, .of t.lhs)) :
    Returns (placeWordAdd q.1 q.2) (Fits t) := by
  have hfits {p : Pair} (hp : p = .h ∨ p = .d ∨ p = .b) : Fits t (.addWord p q.1 q.2) := by
    refine fits_of_word hwidth hr (by rw [hop]; rfl) hp fun ρ _ => ?_
    rw [hop]
    refine ⟨_, rfl, ?_⟩
    obtain rfl | rfl := hq
    · rfl
    · exact BitVec.add_comm _ _
  refine .ite (fun heq => ?_) (fun _ => ?_)
  · refine .seq fun _ => .pure ?_
    have := hfits (.inl rfl)
    rwa [← heq] at this
  · refine .bind (returns_placeOperands (by simp)) fun p hp => ?_
    exact .seq fun _ => .pure (hfits (.inr hp))

/-- The bitwise operations of words and of bytes. -/
theorem evaluate?_bitwise {op : Op} {alu : AluOp} (halu : aluOp? op = some alu)
    (hbits : isBitwise alu = true) (a b : Word) :
    op.evaluate? a b = some (bitwise alu a b) ∧ bitwise alu a b = bitwise alu b a ∧
      isOperator op = true := by
  cases op <;> cases halu <;> first | cases hbits; done | skip
  · exact ⟨rfl, BitVec.xor_comm a b, rfl⟩
  · exact ⟨rfl, BitVec.and_comm a b, rfl⟩
  · exact ⟨rfl, BitVec.or_comm a b, rfl⟩

/-- What is left to do for a bitwise operation on words computes it, with an immediate or with a
pair. -/
theorem returns_placeWordBitwise {alu : AluOp} (hwidth : t.width = .word)
    (halu : aluOp? t.op = some alu) (hbits : isBitwise alu = true) (hr : t.rhs = some rhs)
    (hq : q = (.of t.lhs, .of rhs) ∨ q = (.of rhs, .of t.lhs)) :
    Returns (placeWordBitwise alu q.1 q.2) (Fits t) := by
  have heval := evaluate?_bitwise halu hbits
  -- Both forms compute the same word, in either order of the operands.
  have hfits {o : Operation} (hvalid : o.Valid)
      (h : ∀ ρ : Valuation, (∀ c, ρ (.const c) = BitVec.ofInt 16 c) →
        o.result ρ = bitwise alu (ρ q.1) (ρ q.2)) : Fits t o := by
    refine fits_of_word hwidth hr (heval 0 0).2.2 hvalid fun ρ hliteral => ?_
    refine ⟨_, (heval _ _).1, ?_⟩
    rw [h ρ hliteral]
    obtain rfl | rfl := hq
    · rfl
    · exact (heval _ _).2.1
  unfold placeWordBitwise
  split
  next c hc =>
    refine .seq fun _ => .seq fun _ => .pure (hfits hbits fun ρ hliteral => ?_)
    rw [hc]
    show _ = bitwise alu (ρ q.1) (ρ (.const c))
    rw [hliteral]
    rfl
  next =>
    refine .bind (returns_placeOperands (by simp)) fun p hp => ?_
    split
    · exact .rejectTooComplex
    · exact .seq fun _ => .seq fun _ => .pure (hfits ⟨hbits, hp⟩ fun ρ _ => rfl)

/-- A comparison of words by the flags of their difference, where the relation is one that these can
tell exactly. -/
theorem fits_compareWord {relation : Relation} {swapped : Bool} (hwidth : t.width = .word)
    (hr : t.rhs = some rhs) (hrelation : t.op.relation? = some relation)
    (hexact : relation.isExact swapped = true) :
    Fits t (.compareWord (relation.condition swapped) (.of (if swapped then rhs else t.lhs))
      (.of (if swapped then t.lhs else rhs))) := by
  have hop : isOperator t.op = true := by
    cases h : t.op <;> rw [h] at hrelation <;> first | rfl | cases hrelation
  refine fits_of_word hwidth hr hop trivial fun ρ _ => ?_
  refine ⟨_, Op.evaluate?_of_relation? hrelation _ _, ?_⟩
  rw [← relation.tells_condition hexact, Operation.result]
  have hif (u v : Operand) : ρ (.of (if swapped then u else v)) =
      if swapped then ρ (.of u) else ρ (.of v) := by
    cases swapped <;> rfl
  rw [hif, hif, setWidth_truth]

/-- What is left to do for a comparison of words computes it: the difference is taken in the order
in which the carry, or the difference itself, can tell. -/
theorem returns_placeWordCompare (hwidth : t.width = .word) (hr : t.rhs = some rhs) :
    Returns (placeWordCompare t (.of t.lhs) (.of rhs)) (Fits t) := by
  have hplace {relation : Relation} (swapped : Bool) (hrelation : t.op.relation? = some relation)
      (hexact : relation.isExact swapped = true) : Returns (do
        placeDifference (if swapped then .of rhs else .of t.lhs)
          (if swapped then .of t.lhs else .of rhs)
        return .compareWord (relation.condition swapped) (if swapped then .of rhs else .of t.lhs)
          (if swapped then .of t.lhs else .of rhs)) (Fits t) := by
    have hfits := fits_compareWord hwidth hr hrelation hexact
    cases swapped with
    | false => exact .seq fun _ => .pure hfits
    | true => exact .seq fun _ => .pure hfits
  unfold placeWordCompare
  cases hop : t.op <;> first | exact .rejectIllegal _ | refine .get fun s => ?_
  case eq | ne => exact hplace _ (by rw [hop]; rfl) rfl
  case gt | le => exact hplace true (by rw [hop]; rfl) rfl
  case lt | ge => exact hplace false (by rw [hop]; rfl) rfl

/-- What is left to do for a shift of a word computes it. A few places to the left are doublings,
and all else is a call. -/
theorem returns_placeWordShift (hwidth : t.width = .word) (hop : t.op = .shl ∨ t.op = .shr) :
    Returns (placeWordShift t) (Fits t) := by
  have hoperator : isOperator t.op = true := by
    obtain hop | hop := hop <;> rw [hop] <;> rfl
  have hshift (a b : Word) :
      t.op.evaluate? a b = some (shiftBits (t.op = .shl) a (Side.low.part b).toNat) := by
    rw [low_part_eq]
    obtain hop | hop := hop <;> rw [hop] <;> rfl
  -- The call is the last resort for a literal, and the rule for any other count.
  have hcall {count : Operand} (hr : t.rhs = some count) : Returns (do
      loadReg .c (.of count)
      loadHLForChange (.of t.lhs)
      if (Operation.shiftWordRoutine (t.op = .shl)).clobbers.contains .a then
        saveAccumulator false
      keepByte (.of count) .c [.c] true
      return .shiftWord (t.op = .shl) (.of t.lhs) (.of count)) (Fits t) := by
    have hfinish : Returns (do
        keepByte (.of count) .c [.c] true
        return .shiftWord (t.op = .shl) (.of t.lhs) (.of count)) (Fits t) := by
      refine .seq fun _ => .pure ?_
      exact fits_of_word hwidth hr hoperator trivial fun ρ _ => ⟨_, hshift _ _, rfl⟩
    refine .seq fun _ => .seq fun _ => ?_
    exact .ite (fun _ => .seq fun _ => hfinish) fun _ => hfinish
  unfold placeWordShift
  cases hr : t.rhs with
  | none => exact .rejectIllegal _
  | some count =>
    cases count with
    | const n =>
      by_cases hn : t.op = Op.shl ∧ 0 ≤ n ∧ n ≤ maxDoublings
      · simp only [Operand.const?, if_pos hn]
        refine .seq fun _ => .pure ?_
        refine fits_of_word hwidth hr hoperator trivial fun ρ hliteral => ⟨_, hshift _ _, ?_⟩
        obtain ⟨hleft, hlow, hhigh⟩ := hn
        rw [show (Value.of (.const n)) = .const n from rfl, hliteral, low_ofInt]
        -- The literals that are doubled are small, so cutting them off to a byte does nothing.
        have hcount : (lowByte n).toNat = n.toNat := by
          have : n = 0 ∨ n = 1 ∨ n = 2 ∨ n = 3 := by
            unfold maxDoublings at hhigh
            omega
          obtain rfl | rfl | rfl | rfl := this <;> rfl
        rw [hcount, hleft]
        rfl
      · simp only [Operand.const?, if_neg hn]
        exact hcall hr
    | var name | temp id =>
      simp only [Operand.const?]
      exact hcall hr

/-- What is left to do for any operation on words computes it. -/
theorem returns_placeWord (hwidth : t.width = .word) (hinv : t.op = .inv → t.rhs = none) :
    Returns (placeWord t) (Fits t) := by
  -- Three operators are bitwise and six compare. The others have cases of their own.
  have hbitwise {alu : AluOp} (halu : aluOp? t.op = some alu) (hbits : isBitwise alu = true) :
      Returns (commuteOperands t >>= fun q => placeWordBitwise alu q.1 q.2) (Fits t) := by
    refine .bind returns_commuteOperands fun q hcommuted => ?_
    obtain ⟨rhs, hr, hq⟩ := hcommuted
    exact returns_placeWordBitwise hwidth halu hbits hr hq
  have hcompare : Returns (do
      let y ← rightOperand t
      placeWordCompare t (.of t.lhs) y) (Fits t) := by
    refine .bind returns_rightOperand fun y hright => ?_
    obtain ⟨rhs, hr, rfl⟩ := hright
    exact returns_placeWordCompare hwidth hr
  unfold placeWord
  cases h : t.op
  case inv => exact .seq fun _ => .seq fun _ => .pure (fits_invertWord hwidth h (hinv h))
  case shl => exact returns_placeWordShift hwidth (.inl h)
  case shr => exact returns_placeWordShift hwidth (.inr h)
  case add =>
    refine .bind returns_commuteOperands fun q hcommuted => ?_
    obtain ⟨rhs, hr, hq⟩ := hcommuted
    exact returns_placeWordAdd hwidth h hr hq
  case and => exact hbitwise (by rw [h]; rfl) rfl
  case or => exact hbitwise (by rw [h]; rfl) rfl
  case xor => exact hbitwise (by rw [h]; rfl) rfl
  case sub =>
    refine .bind returns_rightOperand fun y hright => ?_
    obtain ⟨rhs, hr, rfl⟩ := hright
    refine .seq fun _ => .pure ?_
    refine fits_of_word hwidth hr (by rw [h]; rfl) trivial fun ρ _ => ?_
    rw [h]
    exact ⟨_, rfl, rfl⟩
  all_goals exact hcompare

/-- Whatever is placed for a triple, what is left to do computes its result. So it is enough to know
that the operands are where the operation reads them. -/
theorem returns_place (hinv : t.op = .inv → t.rhs = none) : Returns (place t) (Fits t) := by
  unfold place
  cases hwidth : t.width with
  | byte => exact returns_placeByte hwidth hinv
  | word => exact returns_placeWord hwidth hinv

end Words

end Accumulator.Select
