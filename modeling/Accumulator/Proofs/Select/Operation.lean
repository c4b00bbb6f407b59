import Accumulator.Proofs.Machine.Walk
import Accumulator.Proofs.Triple.Meaning
import Accumulator.Select.Arithmetic

/-!
# What the code of an operation computes

With its operands in place, an operation is a short piece of code. Here is what each of these pieces
computes: the operations on the accumulator, the comparisons with the flag that answers them, the
operations on HL byte by byte, and the calls. Which byte is compared with which, and whether a
constant is raised for it, is up to `orient`; that every choice asks the same question is
`orient_tells`.
-/

namespace Accumulator

/-! ## Relations and flags -/

/-- The relation between unsigned numbers. -/
def Relation.holds {n : Nat} (a b : BitVec n) : Relation → Bool
  | eq => a == b
  | ne => a != b
  | lt => a.ult b
  | ge => b.ule a
  | gt => b.ult a
  | le => a.ule b

/-- A comparison gives one if its relation holds, and zero otherwise. -/
theorem Op.evaluate?_of_relation? {op : Op} {relation : Relation} {n : Nat}
    (h : op.relation? = some relation) (a b : BitVec n) :
    op.evaluate? a b = some (truth (relation.holds a b)) := by
  cases op <;> cases h <;> rfl

/-- What a flag says after `y` has been taken from `x`. -/
def Cond.tells {n : Nat} (x y : BitVec n) : Cond → Bool
  | z => x == y
  | nz => x != y
  | c => x.ult y
  | nc => y.ule x

/-- The flag that is tested answers the relation, for the operands in the order in which they are
compared, unless the answer is inexact in that order. -/
theorem Relation.tells_condition {relation : Relation} {swapped : Bool} {n : Nat}
    (h : relation.isExact swapped = true) (a b : BitVec n) :
    (relation.condition swapped).tells (if swapped then b else a) (if swapped then a else b) =
      relation.holds a b := by
  cases relation <;> cases swapped <;>
    first
    | rfl
    | contradiction
    | simp only [condition, Cond.tells, holds, if_true, bne, BEq.comm]

namespace Select

/-- A constant that is raised by one does not wrap around. -/
theorem lowByte_raised {k : Int} (hk : (lowByte k).toNat < 255) :
    (lowByte ((lowByte k).toNat + 1)).toNat = (lowByte k).toNat + 1 := by
  have hraised : lowByte ((lowByte k).toNat + 1) = BitVec.ofNat 8 ((lowByte k).toNat + 1) := by
    rw [lowByte, ← BitVec.ofInt_natCast]
    rfl
  rw [hraised, BitVec.toNat_ofNat, Nat.mod_eq_of_lt (by omega)]

/-- Being at least the raised constant is being greater than the constant. -/
theorem raised_ule {r k : Byte} (h : r.toNat = k.toNat + 1) (x : Byte) : r.ule x = k.ult x := by
  rw [Bool.eq_iff_iff, BitVec.ult_iff_lt, BitVec.ule_iff_le, BitVec.lt_def, BitVec.le_def]
  omega

/-- Being less than the raised constant is being at most the constant. -/
theorem ult_raised {r k : Byte} (h : r.toNat = k.toNat + 1) (x : Byte) : x.ult r = x.ule k := by
  rw [Bool.eq_iff_iff, BitVec.ult_iff_lt, BitVec.ule_iff_le, BitVec.lt_def, BitVec.le_def]
  omega

/-- In whatever order two bytes are compared, and with whatever constant, the flag answers the
relation; a constant on the left of `>=` must not be equal to the other byte. -/
theorem orient_tells {relation : Relation} {cheap swapped : Bool} {raised : Option Int}
    {lhs rhs : Operand} {a b : Byte} (horient : orient relation cheap lhs rhs = (swapped, raised))
    (ha : ∀ k, lhs.const? = some k → a = lowByte k) (hb : ∀ k, rhs.const? = some k → b = lowByte k)
    (hge : relation = .ge → lhs.isConst = true → a ≠ b) :
    (relation.condition swapped).tells (if swapped then b else a)
        ((raised.map lowByte).getD (if swapped then a else b)) = relation.holds a b := by
  unfold orient at horient
  split at horient
  next hexact =>
    cases horient
    exact relation.tells_condition hexact a b
  next hexact =>
    split at horient
    next hvar =>
      cases horient
      refine relation.tells_condition ?_ a b
      cases relation <;> cases cheap <;> first | rfl | simp_all [Relation.isExact]
    next k hk =>
      split at horient
      next hconst =>
        -- The documented exception: the constant is taken as it is.
        cases horient
        obtain ⟨rfl, rfl⟩ := hconst
        have hne := hge rfl (by cases lhs <;> first | rfl | cases hk)
        show b.ult a = b.ule a
        rw [Bool.eq_iff_iff, BitVec.ult_iff_lt, BitVec.ule_iff_le]
        have : a.toNat ≠ b.toNat := fun h => hne (BitVec.eq_of_toNat_eq h)
        constructor <;> intro h <;> bv_omega
      next hconst =>
        split at horient
        next hlt =>
          cases horient
          have hraised := lowByte_raised hlt
          cases relation <;> cases cheap <;> first | contradiction | simp only [not_and] at hconst
          · obtain rfl := ha k hk
            exact raised_ule hraised b
          · obtain rfl := hb k hk
            exact raised_ule hraised a
          · obtain rfl := hb k hk
            exact ult_raised hraised a
        next hlt =>
          cases horient
          refine relation.tells_condition ?_ a b
          cases relation <;> cases cheap <;> first | rfl | simp_all [Relation.isExact]

open Machine

variable {data : Word → Prop} {m : Machine} {source : Source}

/-! ## Bytes -/

/-- The byte that a second operand stands for. -/
def Source.value (m : Machine) : Source → Byte
  | reg r => m.get r
  | imm value => value

/-- A second operand in memory is data. -/
def Source.Within (data : Word → Prop) (m : Machine) : Source → Prop
  | reg .m => data m.hl
  | _ => True

/-- An operation of the accumulator with a second operand does the same wherever the operand comes
from. -/
theorem execute_source (op : AluOp) (source : Source) (m : Machine) :
    m.execute (source.instr op) = .ok (m.alu op (source.value m)) := by
  cases source <;> rfl

/-- If the operand comes from memory, the access stays within the data. -/
theorem within_source (op : AluOp) (h : source.Within data m) :
    Machine.Within data m (source.instr op) := by
  cases source with
  | imm value => exact within_of_registers rfl rfl rfl
  | reg r =>
    cases r with
    | m =>
      intro _ a ha
      obtain rfl : a = m.hl := by
        simpa [Source.instr, touches, loads, storeCells, stores, operandCells] using ha
      exact h
    | _ => exact within_of_registers rfl rfl rfl

/-- Such an instruction is no jump, writes no memory and leaves the stack alone. -/
theorem source_plain (op : AluOp) (source : Source) :
    (source.instr op).isBarrier = false ∧ (source.instr op).writesMemory = false ∧
      (source.instr op).pair? ≠ some .sp ∧ (source.instr op).spChange = 0 := by
  cases source <;> simp [Source.instr, Instr.isBarrier, Instr.writesMemory, Instr.effects,
    Instr.pair?, Instr.spChange]

/-- The accumulator and a second operand. -/
theorem computes_source {op : AluOp} (hop : op ≠ .cmp) (h : source.Within data m) :
    Computes data [source.instr op] m
      { m.registers with a := (aluResult op m.registers.a (source.value m)).1 } := by
  obtain ⟨hbarrier, hwrites, hsp, hchange⟩ := source_plain op source
  have hregisters : (m.alu op (source.value m)).registers =
      { m.registers with a := (aluResult op m.registers.a (source.value m)).1 } := by
    cases op <;> first | rfl | contradiction
  exact .of_execute hbarrier hwrites hsp hchange (within_source op h) (execute_source op source m)
    hregisters

/-- A second operand minus the accumulator: the accumulator is negated first. -/
theorem computes_subtractFrom (hsource : source ≠ .reg .a) (h : source.Within data m) :
    Computes data [.cma, .inr .a, source.instr .add] m
      { m.registers with a := source.value m - m.registers.a } := by
  let negated := (m.set .a (~~~m.registers.a)).setCounter .a (~~~m.registers.a + 1)
  have hwalks : Walks data [.cma, .inr .a] m negated :=
    .cons rfl (within_of_registers rfl rfl rfl) rfl
      (.single rfl (within_of_registers rfl rfl rfl) rfl)
  -- The second operand does not lie in the accumulator, so it is what it was.
  have hvalue : source.value negated = source.value m := by
    cases source with
    | imm value => rfl
    | reg r => cases r <;> first | rfl | contradiction
  have hwithin : source.Within data negated := by
    cases source with
    | imm value => trivial
    | reg r => cases r <;> exact h
  have hsum : source.value m - m.registers.a = ~~~m.registers.a + 1#8 + source.value m := by
    rw [← BitVec.neg_eq_not_add, BitVec.add_comm, BitVec.sub_eq_add_neg]
  rw [hsum, ← hvalue]
  exact .append_walks hwalks ⟨rfl, rfl, rfl, fun _ _ => rfl⟩ (computes_source nofun hwithin)

/-- The flags after a comparison. -/
theorem holds_alu_cmp (m : Machine) (y : Byte) (cond : Cond) :
    (m.alu .cmp y).holds cond = cond.tells m.registers.a y := by
  have hzero : (m.registers.a - y == 0) = (m.registers.a == y) := by
    rw [Bool.eq_iff_iff, beq_iff_eq, beq_iff_eq]
    constructor <;> intro h <;> bv_omega
  have hcarry : m.registers.a.usubOverflow y = m.registers.a.ult y := by
    rw [BitVec.usubOverflow_eq]
    rfl
  cases cond with
  | z => exact hzero
  | nz => exact congrArg not hzero
  | c => exact hcarry
  | nc =>
    show (!m.registers.a.usubOverflow y) = y.ule m.registers.a
    rw [hcarry, BitVec.ule_eq_not_ult]

/-- A comparison of bytes, answered by a flag. -/
theorem computes_compare (cond : Cond) (h : source.Within data m) :
    Computes data (source.instr .cmp :: [.mvi .a 1, .jump cond 4, .alu .xor .a]) m
      { m.registers with a := truth (cond.tells m.registers.a (source.value m)) } := by
  obtain ⟨hbarrier, -, -, -⟩ := source_plain .cmp source
  have hstep : m.step (source.instr .cmp) = .ok (m.alu .cmp (source.value m)) :=
    (step_eq_execute hbarrier).trans (execute_source .cmp source m)
  have hwalks : Walks data [source.instr .cmp] m (m.alu .cmp (source.value m)) :=
    .single (isControl_of_not_barrier hbarrier) (within_source .cmp h) hstep
  rw [← holds_alu_cmp]
  exact .append_walks hwalks ⟨rfl, rfl, rfl, fun _ _ => rfl⟩ (.flag cond _)

theorem iterate_add_one {w : Nat} (n : Nat) (x : BitVec w) :
    (· + 1#w)^[n] x = x + BitVec.ofNat w n := by
  induction n generalizing x with
  | zero => simp
  | succ n ih =>
    rw [Function.iterate_succ_apply, ih, Nat.add_comm, BitVec.ofNat_add, BitVec.add_assoc]

theorem iterate_sub_one {w : Nat} (n : Nat) (x : BitVec w) :
    (· - 1#w)^[n] x = x - BitVec.ofNat w n := by
  induction n generalizing x with
  | zero => simp
  | succ n ih =>
    rw [Function.iterate_succ_apply, ih, Nat.add_comm, BitVec.ofNat_add]
    simp only [BitVec.sub_eq_add_neg, BitVec.neg_add, BitVec.add_assoc]

theorem computes_increments (n : Nat) (m : Machine) :
    Computes data (List.replicate n (.inr .a)) m
      { m.registers with a := m.registers.a + BitVec.ofNat 8 n } := by
  rw [← iterate_add_one, ← iterate_accumulator]
  exact .replicate (fun m => .of_local rfl rfl rfl) n m

theorem computes_decrements (n : Nat) (m : Machine) :
    Computes data (List.replicate n (.dcr .a)) m
      { m.registers with a := m.registers.a - BitVec.ofNat 8 n } := by
  rw [← iterate_sub_one, ← iterate_accumulator]
  exact .replicate (fun m => .of_local rfl rfl rfl) n m

theorem computes_inverse (m : Machine) :
    Computes data [.cma] m { m.registers with a := ~~~m.registers.a } :=
  .of_local rfl rfl rfl

/-- A shift by one place goes through the carry, which is cleared first. -/
theorem computes_shiftOne (left : Bool) (m : Machine) :
    Computes data [.alu .or .a, if left then .ral else .rar] m
      { m.registers with
        a := if left then m.registers.a <<< 1 else m.registers.a >>> 1 } := by
  have hclear : Walks data [.alu .or .a] m (m.alu .or m.registers.a) :=
    .single rfl (within_of_registers rfl rfl rfl) rfl
  refine .append_walks hclear ⟨rfl, rfl, rfl, fun _ _ => rfl⟩ ?_
  cases left with
  | true =>
    exact .of_local rfl rfl (by simp [alu, aluResult, rotateLeft, Machine.set, Registers.set])
  | false =>
    exact .of_local rfl rfl (by simp [alu, aluResult, rotateRight, Machine.set, Registers.set])

/-- A byte is shifted by a routine, which counts `c` down to zero. -/
theorem computes_callByteShift (left : Bool) (hdata : Unmarked data m) :
    Computes data [.call (if left then .shiftLeft else .shiftRight)] m
      { m.registers with
        a := if left then m.registers.a <<< m.registers.c.toNat
          else m.registers.a >>> m.registers.c.toNat
        c := 0 } := by
  cases left with
  | true =>
    obtain ⟨carry, hcall⟩ := call_shiftLeft m
    exact .of_call hdata hcall
  | false =>
    obtain ⟨carry, hcall⟩ := call_shiftRight m
    exact .of_call hdata hcall

/-! ## Words -/

theorem computes_incrementPair (n : Nat) (m : Machine) :
    Computes data (List.replicate n (.inx .h)) m
      (withHL m.registers (m.hl + BitVec.ofNat 16 n)) := by
  rw [← iterate_add_one]
  refine iterate_withHL (· + 1#16) n m.registers ▸ ?_
  exact .replicate (fun m => .of_local rfl rfl rfl) n m

theorem computes_decrementPair (n : Nat) (m : Machine) :
    Computes data (List.replicate n (.dcx .h)) m
      (withHL m.registers (m.hl - BitVec.ofNat 16 n)) := by
  rw [← iterate_sub_one]
  refine iterate_withHL (· - 1#16) n m.registers ▸ ?_
  exact .replicate (fun m => .of_local rfl rfl rfl) n m

theorem computes_doublings (n : Nat) (m : Machine) :
    Computes data (List.replicate n (.dad .h)) m (withHL m.registers (m.hl <<< n)) := by
  rw [← iterate_shiftLeft]
  refine iterate_withHL (· <<< 1) n m.registers ▸ ?_
  refine .replicate (fun m => .of_local rfl rfl ?_) n m
  show withHL m.registers (m.hl + m.hl) = withHL m.registers (m.hl <<< 1)
  rw [add_self_eq_shiftLeft]

theorem computes_addPair {p : Pair} (hp : p ≠ .sp) (m : Machine) :
    Computes data [.dad p] m (withHL m.registers (m.hl + m.pair p)) :=
  .of_local (by cases p <;> first | rfl | contradiction) rfl rfl

/-- A pair is loaded with an immediate, which may be the address of a variable. -/
theorem computes_lxi {p : Pair} {v : Imm} {w : Word} (hp : p.isGeneral = true)
    (h : m.imm v = .ok w) : Computes data [.lxi p v] m (m.setPair p w).registers := by
  have hrun : [Instr.lxi p v].foldlM Machine.execute m = .ok (m.setPair p w) := by
    simp only [List.foldlM, execute, h]
    rfl
  exact .of_local (by cases p <;> first | rfl | cases hp) hrun rfl

/-- The byte that HL points at. -/
theorem computes_loadByte {r : Reg} (hr : r ≠ .m) (h : data m.hl) :
    Computes data [.mov r .m] m (m.registers.set r (m.memory.read m.hl)) := by
  have hwithin : Within data m (.mov r .m) := by
    intro _ a ha
    obtain rfl : a = m.hl := by
      cases r <;> first
        | exact absurd rfl hr
        | simpa [touches, loads, storeCells, stores, operandCells] using ha
    exact h
  have hstep : m.execute (.mov r .m) = .ok (m.set r (m.memory.read m.hl)) := by
    cases r <;> rfl
  refine .of_execute rfl ?_ (by rintro ⟨⟩) rfl hwithin hstep ?_
  all_goals cases r <;> first | rfl | exact absurd rfl hr

/-- The word that HL points at is loaded into HL itself. The low byte waits in the accumulator while
HL is still needed as a pointer. -/
theorem computes_loadWord (hlow : data m.hl) (hhigh : data (m.hl + 1)) :
    Computes data [.mov .a .m, .inx .h, .mov .h .m, .mov .l .a] m
      { withHL m.registers (m.memory.readWord m.hl) with a := m.memory.read m.hl } := by
  show Computes data ([.mov .a .m] ++ ([.inx .h] ++ ([.mov .h .m] ++ [.mov .l .a]))) m _
  refine (computes_loadByte (r := .a) (by decide) hlow).append fun m₁ h₁ => ?_
  have hnext : Computes data [.inx .h] m₁ (withHL m₁.registers (m₁.hl + 1)) :=
    .of_local rfl rfl rfl
  refine hnext.append fun m₂ h₂ => ?_
  have hhl₁ : m₁.hl = m.hl := by rw [Machine.hl, h₁.registers]; rfl
  have hhl₂ : m₂.hl = m.hl + 1 := by rw [Machine.hl, h₂.registers, withHL_hl, hhl₁]
  have hbyte : m₂.memory.read m₂.hl = m.memory.read (m.hl + 1) := by
    rw [hhl₂, h₂.memory _ hhigh, h₁.memory _ hhigh]
  refine (computes_loadByte (r := .h) (by decide) (hhl₂ ▸ hhigh)).append fun m₃ h₃ => ?_
  refine .of_local rfl rfl ?_
  show m₃.registers.set .l m₃.registers.a = _
  rw [h₃.registers, hbyte, h₂.registers, h₁.registers, Memory.readWord, withHL, withHL,
    high_of_append, low_of_append]
  rfl

/-- HL is shifted by a routine, which counts `c` down to zero and uses the accumulator. -/
theorem computes_callWordShift (left : Bool) (hdata : Unmarked data m) :
    ∃ x, Computes data [.call (if left then .shiftLeftWord else .shiftRightWord)] m
      { withHL m.registers
          (if left then m.hl <<< m.registers.c.toNat else m.hl >>> m.registers.c.toNat) with
        a := x, c := 0 } := by
  cases left with
  | true =>
    obtain ⟨carry, hcall⟩ := call_shiftLeftWord m
    exact ⟨m.registers.a, .of_call hdata hcall⟩
  | false =>
    obtain ⟨carry, x, hcall⟩ := call_shiftRightWord m
    exact ⟨x, .of_call hdata hcall⟩

/-- HL is inverted byte by byte, through the accumulator. -/
theorem computes_inverseWord (m : Machine) :
    ∃ x, Computes data [.mov .a .l, .cma, .mov .l .a, .mov .a .h, .cma, .mov .h .a] m
      { withHL m.registers (~~~m.hl) with a := x } := by
  refine ⟨~~~m.registers.h, ?_⟩
  have hinverse : withHL m.registers (~~~m.hl) =
      { m.registers with h := ~~~m.registers.h, l := ~~~m.registers.l } := by
    rw [Machine.hl, BitVec.not_append, withHL, high_of_append, low_of_append]
  rw [hinverse]
  exact .of_local rfl rfl rfl

theorem append_ofInt (k : Int) : highByte k ++ lowByte k = BitVec.ofInt 16 k := by
  apply BitVec.eq_of_toNat_eq
  rw [toNat_append_byte, highByte, lowByte, BitVec.toNat_ofInt, BitVec.toNat_ofInt,
    BitVec.toNat_ofInt]
  omega

/-- A bitwise operation on numbers of any width. -/
def bitwise {n : Nat} (op : AluOp) (x y : BitVec n) : BitVec n :=
  match op with
  | .and => x &&& y
  | .or => x ||| y
  | .xor => x ^^^ y
  | _ => x

/-- The operations that go bit by bit. -/
def isBitwise : AluOp → Bool
  | .and | .or | .xor => true
  | _ => false

theorem bitwise_append {op : AluOp} (hop : isBitwise op = true) (h l d e : Byte) :
    bitwise op (h ++ l : Word) (d ++ e) =
      (aluResult op h d).1 ++ (aluResult op l e).1 := by
  cases op with
  | and => exact BitVec.and_append
  | or => exact BitVec.or_append
  | xor => exact BitVec.xor_append
  | add | sub | cmp => cases hop

/-- A bitwise operation on HL and another pair. -/
theorem computes_bitwisePair {op : AluOp} {p : Pair} {high low : Reg} (hop : isBitwise op = true)
    (hp : p.halves? = some (high, low)) (hne : p ≠ .h) (m : Machine) :
    ∃ x, Computes data
      [.mov .a .l, .alu op low, .mov .l .a, .mov .a .h, .alu op high, .mov .h .a] m
      { withHL m.registers (bitwise op m.hl (m.pair p)) with a := x } := by
  refine ⟨(aluResult op m.registers.h (m.registers.get high)).1, ?_⟩
  rw [pair_of_halves? hp, Machine.hl, bitwise_append hop]
  simp only [withHL, high_of_append, low_of_append]
  have hcases : (p = .b ∨ p = .d) ∧ (op = .and ∨ op = .or ∨ op = .xor) := by
    cases p <;> cases op <;> simp_all [isBitwise, Pair.halves?]
  obtain ⟨rfl | rfl, rfl | rfl | rfl⟩ := hcases <;> cases hp <;> exact .of_local rfl rfl rfl

/-- A bitwise operation on HL and a literal. -/
theorem computes_bitwiseLiteral {op : AluOp} (hop : isBitwise op = true) (k : Int) (m : Machine) :
    ∃ x, Computes data
      [.mov .a .l, .aluImm op (lowByte k), .mov .l .a, .mov .a .h, .aluImm op (highByte k),
        .mov .h .a] m
      { withHL m.registers (bitwise op m.hl (BitVec.ofInt 16 k)) with a := x } := by
  refine ⟨(aluResult op m.registers.h (highByte k)).1, ?_⟩
  rw [← append_ofInt, Machine.hl, bitwise_append hop]
  simp only [withHL, high_of_append, low_of_append]
  have hcases : op = .and ∨ op = .or ∨ op = .xor := by
    cases op <;> simp_all [isBitwise]
  obtain rfl | rfl | rfl := hcases <;> exact .of_local rfl rfl rfl

/-- DE is subtracted from HL by a routine, which leaves the high byte of the difference in the
accumulator. -/
theorem computes_subtractWords (hdata : Unmarked data m) :
    Computes data [.call .subtractWord] m
      { withHL m.registers (m.hl - m.pair .d) with
        a := (m.hl - m.pair .d).extractLsb' 8 8 } :=
  .of_call hdata (call_subtractWord m)

/-- The flags that tell zero from other numbers. -/
def asksZero : Cond → Bool
  | .z | .nz => true
  | .c | .nc => false

/-- A word is zero if its bytes have no bit together. -/
theorem or_beq_zero (h l : Byte) : (h ||| l == 0) = ((h ++ l : Word) == 0) := by
  have hword : (h ++ l : Word) = 0 ↔ h = 0 ∧ l = 0 := by
    rw [← BitVec.toNat_inj, ← BitVec.toNat_inj, ← BitVec.toNat_inj, toNat_append_byte]
    show h.toNat * 256 + l.toNat = 0 ↔ h.toNat = 0 ∧ l.toNat = 0
    omega
  rw [Bool.eq_iff_iff, beq_iff_eq, beq_iff_eq, hword]
  exact BitVec.or_eq_zero_iff

/-- Whether HL is zero, answered by a flag. -/
theorem computes_testPair {cond : Cond} (hcond : asksZero cond = true) (m : Machine) :
    Computes data ([.mov .a .h, .alu .or .l] ++ [.mvi .a 1, .jump cond 4, .alu .xor .a]) m
      { m.registers with a := truth (cond.tells m.hl 0) } := by
  let tested := (m.set .a m.registers.h).alu .or m.registers.l
  have hwalks : Walks data [.mov .a .h, .alu .or .l] m tested :=
    .cons rfl (within_of_registers rfl rfl rfl) rfl
      (.single rfl (within_of_registers rfl rfl rfl) rfl)
  have hholds : tested.holds cond = cond.tells m.hl 0 := by
    cases cond with
    | z => exact or_beq_zero m.registers.h m.registers.l
    | nz => exact congrArg not (or_beq_zero m.registers.h m.registers.l)
    | c | nc => cases hcond
  rw [← hholds]
  exact .append_walks hwalks ⟨rfl, rfl, rfl, fun _ _ => rfl⟩ (.flag cond tested)

/-- A comparison of words. The carry of the difference answers it, or whether the difference is
zero, and the answer is put into the accumulator. -/
theorem computes_compareWords (cond : Cond) (hdata : Unmarked data m) :
    Computes data (.call .subtractWord ::
        ((if asksZero cond then [.mov .a .h, .alu .or .l] else []) ++
          [.mvi .a 1, .jump cond 4, .alu .xor .a])) m
      { withHL m.registers (m.hl - m.pair .d) with
        a := truth (cond.tells m.hl (m.pair .d)) } := by
  obtain ⟨m₁, hcall, hchanges, hregisters, hcarry⟩ : ∃ m₁, m.call .subtractWord = .ok m₁ ∧
      Changes data m₁.registers m m₁ ∧
      m₁.registers = { withHL m.registers (m.hl - m.pair .d) with a := m₁.registers.a } ∧
      m₁.carry = m.hl.ult (m.pair .d) := by
    refine ⟨_, call_subtractWord m, .of_mark hdata, rfl, ?_⟩
    show m.hl.usubOverflow (m.pair .d) = _
    rw [BitVec.usubOverflow_eq]
    rfl
  have hwalks : Walks data [.call .subtractWord] m m₁ := .single rfl nofun hcall
  refine .append_walks hwalks hchanges ?_
  have hrest (x : Byte) : { withHL m.registers (m.hl - m.pair .d) with a := x } =
      { m₁.registers with a := x } := by
    rw [hregisters]
  rw [hrest]
  cases hcond : asksZero cond with
  -- Equality is tested on the difference, since the routine leaves only the carry.
  | true =>
    have hdifference : m₁.hl = m.hl - m.pair .d := by
      rw [Machine.hl, hregisters]
      exact high_append_low _
    have htells : cond.tells m.hl (m.pair .d) = cond.tells m₁.hl 0 := by
      have hzero : (m.hl == m.pair .d) = (m.hl - m.pair .d == 0) := by
        rw [Bool.eq_iff_iff, beq_iff_eq, beq_iff_eq]
        constructor <;> intro h <;> bv_omega
      rw [hdifference]
      cases cond with
      | z => exact hzero
      | nz => exact congrArg not hzero
      | c | nc => cases hcond
    rw [htells]
    exact computes_testPair hcond m₁
  -- An order is answered by the carry, which is the borrow of the difference.
  | false =>
    have htells : cond.tells m.hl (m.pair .d) = m₁.holds cond := by
      cases cond with
      | z | nz => cases hcond
      | c => exact hcarry.symm
      | nc =>
        show (m.pair .d).ule m.hl = !m₁.carry
        rw [hcarry, BitVec.ule_eq_not_ult]
    rw [htells]
    exact .flag cond m₁

end Select

end Accumulator
