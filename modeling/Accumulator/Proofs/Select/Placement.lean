import Accumulator.Proofs.Select.Operation
import Accumulator.Select.Program

/-!
# Operands in their places

Selecting an operation has two parts. First its operands are brought where the operation reads them:
the accumulator, `c`, HL, a second pair or another register. Then comes the code that computes,
which is fixed by what was placed where. `placeByte` and `placeWord` are the first part alone; their
answer says what is left to do. That nothing else is selected is `selectTriple_eq`.
-/

namespace Accumulator.Select

/-- Where an operation reads an operand. -/
inductive Location where
  | reg (r : Reg)
  | pair (p : Pair)

/-- What is left to do once the operands are in their places. -/
inductive Operation where
  | keep (x : Value)
  | invert (x : Value)
  | shiftOne (left : Bool) (x : Value)
  | shift (left : Bool) (x count : Value)
  | combine (op : AluOp) (x : Value) (source : Source) (y : Value)
  /-- The accumulator is taken from the second operand. -/
  | subtractFrom (x : Value) (source : Source) (y : Value)
  | compare (cond : Cond) (x : Value) (source : Source) (y : Value)
  | invertWord (x : Value)
  | double (n : Nat) (x : Value)
  | shiftWord (left : Bool) (x count : Value)
  | addWord (p : Pair) (x y : Value)
  | combineWord (op : AluOp) (p : Pair) (x y : Value)
  | combineLiteral (op : AluOp) (x : Value) (c : Int)
  | subtractWord (x y : Value)
  | compareWord (cond : Cond) (x y : Value)

/-- Where a second operand is read. An immediate is part of the instruction. -/
def Source.reads (y : Value) : Source → List (Location × Value)
  | reg r => [(.reg r, y)]
  | imm _ => []

/-- The code that changes HL byte by byte. -/
def bytewise (low high : Instr) : List Instr :=
  [.mov .a .l, low, .mov .l .a, .mov .a .h, high, .mov .h .a]

/-- The code that turns a flag into 0 or 1. -/
def flagCode (cond : Cond) : List Instr :=
  [.mvi .a 1, .jump cond 4, .alu .xor .a]

namespace Operation

/-- The places that are read, each with the operand that has to be there. -/
def reads : Operation → List (Location × Value)
  | keep x | invert x | shiftOne _ x => [(.reg .a, x)]
  | shift _ x count => [(.reg .a, x), (.reg .c, count)]
  | combine _ x source y | subtractFrom x source y | compare _ x source y =>
    (.reg .a, x) :: source.reads y
  | invertWord x | double _ x | combineLiteral _ x _ => [(.pair .h, x)]
  | shiftWord _ x count => [(.pair .h, x), (.reg .c, count)]
  | addWord p x y | combineWord _ p x y => [(.pair .h, x), (.pair p, y)]
  | subtractWord x y | compareWord _ x y => [(.pair .h, x), (.pair .d, y)]

/-- The routine that a shift calls. -/
def shiftRoutine (left : Bool) : Routine :=
  if left then .shiftLeft else .shiftRight

/-- The routine that a shift of a word calls. -/
def shiftWordRoutine (left : Bool) : Routine :=
  if left then .shiftLeftWord else .shiftRightWord

/-- The code that computes. -/
def code : Operation → List Instr
  | keep _ => []
  | invert _ => [.cma]
  | shiftOne left _ => [.alu .or .a, if left then .ral else .rar]
  | shift left _ _ => [.call (shiftRoutine left)]
  | combine op _ source _ => [source.instr op]
  | subtractFrom _ source _ => [.cma, .inr .a, source.instr .add]
  | compare cond _ source _ => source.instr .cmp :: flagCode cond
  | invertWord _ => bytewise .cma .cma
  | double n _ => List.replicate n (.dad .h)
  | shiftWord left _ _ => [.call (shiftWordRoutine left)]
  | addWord p _ _ => [.dad p]
  | combineWord op p _ _ =>
    p.halves?.elim [] fun (high, low) => bytewise (.alu op low) (.alu op high)
  | combineLiteral op _ c => bytewise (.aluImm op (lowByte c)) (.aluImm op (highByte c))
  | subtractWord _ _ => [.call .subtractWord]
  | compareWord cond _ _ =>
    .call .subtractWord ::
      ((if asksZero cond then [.mov .a .h, .alu .or .l] else []) ++ flagCode cond)

/-- The record of the registers after a call. -/
def afterCall (routine : Routine) (rf : RegisterFile) : RegisterFile :=
  let cleared := routine.clobbers.foldl (·.clear ·) rf
  if routine.zeroesCount then cleared.bind .c (.const 0) else cleared

/-- The record of the registers afterwards. -/
def update (result : Value) (rf : RegisterFile) : Operation → RegisterFile
  | keep _ | invert _ | shiftOne _ _ | combine _ _ _ _ | subtractFrom _ _ _ | compare _ _ _ _ =>
    rf.bind .a result
  | shift left _ _ => (afterCall (shiftRoutine left) rf).bind .a result
  | double _ _ | addWord _ _ _ => rf.bindPair .h result
  | invertWord _ | combineWord _ _ _ _ | combineLiteral _ _ _ => (rf.clear .a).bindPair .h result
  | shiftWord left _ _ => (afterCall (shiftWordRoutine left) rf).bindPair .h result
  | subtractWord _ _ => (afterCall .subtractWord rf).bindPair .h result
  | compareWord _ _ _ => (afterCall .subtractWord rf).bind .a result

/-- Compute, and record where the result is. -/
def perform (result : Value) (o : Operation) : Selecting Unit := do
  emitAll o.code
  record fun rf => o.update result rf

end Operation

open Operation

/-! ## Bytes -/

/-- Place the operands of a binary operation on bytes. -/
def placeByteBinary (t : Triple) : Selecting Operation := do
  match t.rhs with
  | none => rejectIllegal t .missingOperand
  | some rhs =>
    let s ← get
    let cheap := t.op.isSwappable && prefersSwap s (.of t.lhs) (.of rhs)
    let (swapped, raised) := match t.op.relation? with
      | some relation => orient relation cheap t.lhs rhs
      | none => (cheap, none)
    let primary := Value.of (if swapped then rhs else t.lhs)
    let secondary := match raised with
      | some k => .const k
      | none => Value.of (if swapped then t.lhs else rhs)
    prepareSecond secondary
    loadAccumulator primary
    let source ← secondOperand secondary
    saveAccumulator true
    match t.op.relation?, aluOp? t.op with
    | some relation, _ => return .compare (relation.condition swapped) primary source secondary
    | none, none => rejectIllegal t (.onBytes t.op)
    | none, some op =>
      if t.op = .sub ∧ swapped then return .subtractFrom primary source secondary
      else return .combine op primary source secondary

/-- Place the operands of a shift of a byte. -/
def placeByteShift (t : Triple) : Selecting Operation := do
  let value := Value.of t.lhs
  match t.rhs with
  | none => rejectIllegal t .missingShiftCount
  | some (.const 0) =>
    loadForChange value
    return .keep value
  | some (.const 1) =>
    loadForChange value
    return .shiftOne (t.op = .shl) value
  | some count =>
    loadReg .c (.of count)
    loadForChange value
    keepByte (.of count) .c [.c] true
    return .shift (t.op = .shl) value (.of count)

/-- Place the operands of an operation on bytes. -/
def placeByte (t : Triple) : Selecting Operation :=
  match t.op with
  | .inv => do
    loadForChange (.of t.lhs)
    return .invert (.of t.lhs)
  | .shl | .shr => placeByteShift t
  | _ => placeByteBinary t

/-! ## Words -/

/-- Place the operands of a sum of words. -/
def placeWordAdd (x y : Value) : Selecting Operation := do
  if x = y then
    loadHLForChange x
    return .addWord .h x x
  else
    let p ← placeOperands x y none
    preserveHL
    return .addWord p x y

/-- Place the operands of a bitwise operation on words. -/
def placeWordBitwise (op : AluOp) (x y : Value) : Selecting Operation := do
  match y with
  | .of (.const c) =>
    loadHLForChange x
    saveAccumulator false
    return .combineLiteral op x c
  | _ =>
    let p ← placeOperands x y none
    match p.halves? with
    | none => rejectTooComplex
    | some _ =>
      preserveHL
      saveAccumulator false
      return .combineWord op p x y

/-- Place the operands of a difference of words. -/
def placeDifference (x y : Value) : Selecting Unit := do
  let _ ← placeOperands x y (some .d)
  preserveHL
  saveAccumulator false

/-- Place the operands of a comparison of words. -/
def placeWordCompare (t : Triple) (x y : Value) : Selecting Operation := do
  match t.op.relation? with
  | none => rejectIllegal t .notComparison
  | some relation =>
    let s ← get
    let swapped := t.op = .gt || t.op = .le ||
      (t.op.isCommutative && (s.isInPair y .h && !s.isInPair x .h))
    placeDifference (if swapped then y else x) (if swapped then x else y)
    return .compareWord (relation.condition swapped) (if swapped then y else x)
      (if swapped then x else y)

/-- Place the operands of a shift of a word. -/
def placeWordShift (t : Triple) : Selecting Operation := do
  let x := Value.of t.lhs
  match t.rhs with
  | none => rejectIllegal t .missingShiftCount
  | some count =>
    let doublings := match count.const? with
      | some n => if t.op = Op.shl ∧ 0 ≤ n ∧ n ≤ maxDoublings then some n.toNat else none
      | none => none
    match doublings with
    | some n =>
      loadHLForChange x
      return .double n x
    | none =>
      loadReg .c (.of count)
      loadHLForChange x
      if (shiftWordRoutine (t.op = .shl)).clobbers.contains .a then
        saveAccumulator false
      keepByte (.of count) .c [.c] true
      return .shiftWord (t.op = .shl) x (.of count)

/-- Place the operands of an operation on words. -/
def placeWord (t : Triple) : Selecting Operation := do
  let x := Value.of t.lhs
  match t.op with
  | .inv =>
    loadHLForChange x
    saveAccumulator false
    return .invertWord x
  | .shl | .shr => placeWordShift t
  | .add =>
    let (x, y) ← commuteOperands t
    placeWordAdd x y
  | .and =>
    let (x, y) ← commuteOperands t
    placeWordBitwise .and x y
  | .or =>
    let (x, y) ← commuteOperands t
    placeWordBitwise .or x y
  | .xor =>
    let (x, y) ← commuteOperands t
    placeWordBitwise .xor x y
  | .sub =>
    let y ← rightOperand t
    placeDifference x y
    return .subtractWord x y
  | _ =>
    let y ← rightOperand t
    placeWordCompare t x y

/-- Place the operands of an operation at the width of its triple. -/
def place (t : Triple) : Selecting Operation :=
  match t.width with
  | .byte => placeByte t
  | .word => placeWord t

/-! ## The two parts make the whole -/

variable {t : Triple} {result : Value}

/-- Instructions that are added one list after the other are added together. -/
theorem emitAll_bind_emitAll {α : Type} (is js : List Instr) (f : Unit → Selecting α) :
    (do emitAll is; emitAll js >>= f) = emitAll (is ++ js) >>= f := by
  funext s
  show f () { s with code := s.code ++ is ++ js } = f () { s with code := s.code ++ (is ++ js) }
  rw [List.append_assoc]

/-- A call is one instruction and one change of the record. -/
theorem callRoutine_bind_record (routine : Routine) (f : RegisterFile → RegisterFile) :
    (do callRoutine routine; record f) =
      (do emitAll [.call routine]; record fun rf => f (afterCall routine rf)) := by
  unfold callRoutine afterCall
  cases routine.zeroesCount <;> rfl

/-- A shift of a byte: its operands are placed, and then it is computed. -/
theorem selectByteShift_eq (hop : t.op = .shl ∨ t.op = .shr) :
    (do selectByteShift t; record (·.bind .a result)) = placeByteShift t >>= perform result := by
  unfold selectByteShift placeByteShift
  dsimp only
  generalize t.rhs = right
  split
  next => rfl
  next =>
    simp only [bind_assoc, pure_bind]
    refine bind_congr fun _ => ?_
    funext s
    show EStateM.Result.ok () _ = EStateM.Result.ok () _
    simp [Operation.code, Operation.update]
  next =>
    simp only [bind_assoc, pure_bind]
    refine bind_congr fun _ => ?_
    obtain hop | hop := hop <;> rw [hop] <;> rfl
  next count hzero hone =>
    simp only [bind_assoc, pure_bind]
    refine bind_congr fun _ => bind_congr fun _ => bind_congr fun _ => ?_
    obtain hop | hop := hop <;> rw [hop] <;> exact callRoutine_bind_record _ _

/-- A binary operation on bytes is placed and then computed. The order of the operands and a raised
literal are chosen while placing. -/
theorem selectByteBinary_eq :
    (do selectByteBinary t; record (·.bind .a result)) = placeByteBinary t >>= perform result := by
  unfold selectByteBinary placeByteBinary
  cases t.rhs with
  | none => rfl
  | some rhs =>
    simp only [bind_assoc]
    refine bind_congr fun s => ?_
    refine bind_congr fun _ => bind_congr fun _ => bind_congr fun source => bind_congr fun _ => ?_
    have hflag (cond : Cond) :
        (do emit (source.instr .cmp); emitFlag cond; record (·.bind .a result)) =
          (do emitAll (source.instr .cmp :: flagCode cond); record (·.bind .a result)) :=
      emitAll_bind_emitAll [_] (flagCode cond) _
    cases hop : t.op <;> try rfl
    case sub => cases prefersSwap s (.of t.lhs) (.of rhs) <;> rfl
    all_goals exact hflag _

/-- The operators of expressions. -/
def isOperator : Op → Bool
  | .inc | .dec | .assign | .index | .address | .deref => false
  | _ => true

/-- An operation on bytes is placed and then computed, by cases on the operator. -/
theorem selectByte_eq (hop : isOperator t.op = true) :
    selectByte t = placeByte t >>= perform (.temp t.id) := by
  unfold selectByte placeByte
  cases h : t.op <;> rw [h] at hop <;> try cases hop
  case inv =>
    simp only [bind_assoc, pure_bind]
    rfl
  case shl => exact selectByteShift_eq (.inl h)
  case shr => exact selectByteShift_eq (.inr h)
  all_goals exact selectByteBinary_eq

/-- A sum of words is placed and then computed. -/
theorem selectWordAdd_eq (x y : Value) :
    (do selectWordAdd x y; record (·.bindPair .h result)) =
      placeWordAdd x y >>= perform result := by
  unfold selectWordAdd placeWordAdd
  split
  next =>
    simp only [bind_assoc, pure_bind]
    rfl
  next =>
    simp only [bind_assoc, pure_bind]
    rfl

/-- A bitwise operation on words is placed and then computed, with a literal or with a pair. -/
theorem selectWordBitwise_eq (op : AluOp) (x y : Value) :
    (do selectWordBitwise op x y; record (·.bindPair .h result)) =
      placeWordBitwise op x y >>= perform result := by
  unfold selectWordBitwise placeWordBitwise
  split
  next =>
    simp only [bind_assoc, pure_bind]
    rfl
  next =>
    simp only [bind_assoc]
    refine bind_congr fun p => ?_
    cases hp : p.halves? with
    | none => rfl
    | some halves =>
      simp only [bind_assoc, pure_bind, perform, Operation.code, hp]
      rfl

/-- A difference of words is placed and then computed, by a call. -/
theorem subtractWords_eq (x y : Value) :
    (do subtractWords x y; record (·.bindPair .h result)) =
      (do placeDifference x y; perform result (.subtractWord x y)) := by
  simp only [subtractWords, placeDifference, bind_assoc]
  exact bind_congr fun _ => bind_congr fun _ => bind_congr fun _ => callRoutine_bind_record _ _

/-- A comparison of words, once it is known which is taken from which. -/
theorem compareWords_eq (cond : Cond) {test : Bool} (htest : test = asksZero cond) (x y : Value) :
    (do
      subtractWords x y
      if test = true then do
        emitAll [.mov .a .h, .alu .or .l]
        emitFlag cond
        record (·.bind .a result)
      else do
        emitFlag cond
        record (·.bind .a result)) =
      (do placeDifference x y; perform result (.compareWord cond x y)) := by
  subst htest
  simp only [subtractWords, placeDifference, bind_assoc]
  refine bind_congr fun _ => bind_congr fun _ => bind_congr fun _ => ?_
  funext s
  cases cond <;>
  · show EStateM.Result.ok () _ = EStateM.Result.ok () _
    simp [Operation.code, flagCode, asksZero, Operation.update, afterCall, Routine.zeroesCount]

/-- A comparison of words is placed and then computed. Which operand is subtracted from which is
chosen while placing. -/
theorem selectWordCompare_eq (x y : Value) :
    selectWordCompare t x y = placeWordCompare t x y >>= perform (.temp t.id) := by
  unfold selectWordCompare placeWordCompare
  cases hop : t.op <;> try rfl
  all_goals
    simp only [Op.relation?, bind_assoc, pure_bind]
    refine bind_congr fun s => ?_
  case eq =>
    cases (s.isInPair y .h && !s.isInPair x .h) with
    | false => exact compareWords_eq (Relation.condition .eq false) rfl x y
    | true => exact compareWords_eq (Relation.condition .eq true) rfl y x
  case ne =>
    cases (s.isInPair y .h && !s.isInPair x .h) with
    | false => exact compareWords_eq (Relation.condition .ne false) rfl x y
    | true => exact compareWords_eq (Relation.condition .ne true) rfl y x
  case gt => exact compareWords_eq (Relation.condition .gt true) rfl y x
  case le => exact compareWords_eq (Relation.condition .le true) rfl y x
  case lt => exact compareWords_eq (Relation.condition .lt false) rfl x y
  case ge => exact compareWords_eq (Relation.condition .ge false) rfl x y

/-- A shift of a word that calls a routine: saving what the routine overwrites is part of placing
the operands, and the call is the operation. -/
theorem callShift_eq {routine : Routine} (left : Bool) (hroutine : routine = shiftWordRoutine left)
    (x count : Value) :
    ((if routine.clobbers.contains .a = true then do
        saveAccumulator false
        keepByte count .c [.c] true
        callRoutine routine
      else do
        keepByte count .c [.c] true
        callRoutine routine) >>= fun _ => record (·.bindPair .h result)) =
      ((if (shiftWordRoutine left).clobbers.contains .a = true then do
        saveAccumulator false
        keepByte count .c [.c] true
        pure (.shiftWord left x count)
      else do
        keepByte count .c [.c] true
        pure (.shiftWord left x count)) >>= perform result) := by
  have hcall : (do callRoutine (shiftWordRoutine left); record (·.bindPair .h result)) =
      perform result (.shiftWord left x count) :=
    callRoutine_bind_record _ _
  subst hroutine
  split
  next => simp only [bind_assoc, pure_bind, hcall]
  next => simp only [bind_assoc, pure_bind, hcall]

/-- A shift of a word is placed and then computed, by doubling or by a call. -/
theorem selectWordShift_eq (hop : t.op = .shl ∨ t.op = .shr) :
    (do selectWordShift t; record (·.bindPair .h result)) =
      placeWordShift t >>= perform result := by
  have hroutine : (if t.op = Op.shl then Routine.shiftLeftWord else .shiftRightWord) =
      shiftWordRoutine (t.op = Op.shl) := by
    obtain hop | hop := hop <;> rw [hop] <;> rfl
  unfold selectWordShift placeWordShift
  cases t.rhs with
  | none => rfl
  | some count =>
    -- Doubling or calling depends on the count alone.
    cases count with
    | const n =>
      by_cases hn : t.op = Op.shl ∧ 0 ≤ n ∧ n ≤ maxDoublings
      · simp only [Operand.const?, if_pos hn, bind_assoc, pure_bind]
        rfl
      · simp only [Operand.const?, if_neg hn, bind_assoc]
        exact bind_congr fun _ => bind_congr fun _ => callShift_eq _ hroutine _ _
    | var name | temp id =>
      simp only [Operand.const?, bind_assoc]
      exact bind_congr fun _ => bind_congr fun _ => callShift_eq _ hroutine _ _

/-- An operation on words is placed and then computed, by cases on the operator. -/
theorem selectWord_eq (hop : isOperator t.op = true) :
    selectWord t = placeWord t >>= perform (.temp t.id) := by
  -- All comparisons are selected in the same way.
  have hcompare : (do selectWordCompare t (.of t.lhs) (← rightOperand t)) =
      (do placeWordCompare t (.of t.lhs) (← rightOperand t)) >>= perform (.temp t.id) := by
    simp only [selectWordCompare_eq, bind_assoc]
  unfold selectWord placeWord
  cases h : t.op <;> rw [h] at hop <;> try cases hop
  case inv =>
    simp only [bind_assoc, pure_bind]
    rfl
  case shl => exact selectWordShift_eq (.inl h)
  case shr => exact selectWordShift_eq (.inr h)
  case add =>
    simp only [bind_assoc]
    exact bind_congr fun operands => selectWordAdd_eq operands.1 operands.2
  case and =>
    simp only [bind_assoc]
    exact bind_congr fun operands => selectWordBitwise_eq .and operands.1 operands.2
  case or =>
    simp only [bind_assoc]
    exact bind_congr fun operands => selectWordBitwise_eq .or operands.1 operands.2
  case xor =>
    simp only [bind_assoc]
    exact bind_congr fun operands => selectWordBitwise_eq .xor operands.1 operands.2
  case sub =>
    simp only [bind_assoc, pure_bind]
    exact bind_congr fun y => subtractWords_eq (.of t.lhs) y
  all_goals exact hcompare

/-- An operation is selected by placing its operands and computing. So what is known of the two
halves is known of the selection. -/
theorem selectTriple_eq (hop : isOperator t.op = true) :
    selectTriple t = place t >>= perform (.temp t.id) := by
  unfold selectTriple place
  cases h : t.op <;> rw [h] at hop <;> try cases hop
  all_goals
    cases t.width with
    | byte => exact selectByte_eq (by rw [h]; rfl)
    | word => exact selectWord_eq (by rw [h]; rfl)

end Accumulator.Select
