import Accumulator.Registers
import Accumulator.Triple.Text

/-!
# What the registers hold

While instructions are selected, a register file records what each register is known to hold. A
word in a pair is recorded as two halves, and the record of one half never outlives the other. A
byte extended to a word is a plain byte in the low register with the constant zero above it.
-/

namespace Accumulator

/-- A value in a register: that of an operand, or the address of an operand. -/
inductive Value where
  | of (operand : Operand)
  | addr (operand : Operand)
  deriving DecidableEq

namespace Value

/-- The value of a literal. -/
def const (value : Int) : Value := of (.const value)

/-- The value of a variable. -/
def var (name : String) : Value := of (.var name)

/-- The result of a triple. -/
def temp (id : Nat) : Value := of (.temp id)

/-- The operand a value comes from. -/
def operand : Value → Operand
  | of o | addr o => o

/-- The value is a literal. -/
def isConst : Value → Bool
  | of (.const _) => true
  | _ => false

/-- The value is that of a variable. -/
def isVar : Value → Bool
  | of (.var _) => true
  | _ => false

/-- An address is written with an ampersand. -/
def text : Value → String
  | of o => o.text
  | addr o => s!"&{o.text}"

end Value

/-- Half of a pair. -/
inductive Side where
  | high
  | low
  deriving DecidableEq

/-- What is known of one register. -/
inductive Content where
  | empty
  | scalar (value : Value)
  | half (value : Value) (side : Side)
  deriving DecidableEq

/-- The value a register holds, whole or in part. -/
def Content.value? : Content → Option Value
  | empty => none
  | scalar value | half value _ => some value

/-- A dash for nothing, and the half after a dot. -/
def Content.text : Content → String
  | empty => "-"
  | scalar value => value.text
  | half value .high => s!"{value.text}.high"
  | half value .low => s!"{value.text}.low"

/-- How a pair holds a value. -/
inductive PairMatch where
  /-- Both halves are recorded. -/
  | full
  /-- A byte in the low register, zero in the high one. -/
  | extended
  deriving DecidableEq

/-- What is known of every register. -/
structure RegisterFile where
  slots : Registers Content := .replicate .empty
  deriving DecidableEq

namespace RegisterFile

/-- Pairs in the order in which a word is looked for. -/
def searchOrder : List Pair := [.h, .d, .b]

/-- What is known of a register. -/
def get (rf : RegisterFile) (r : Reg) : Content :=
  rf.slots.get r

/-- Record the content of one register. -/
def put (rf : RegisterFile) (r : Reg) (c : Content) : RegisterFile :=
  { rf with slots := rf.slots.set r c }

/-- Forget a register. Forgetting half of a word forgets the other half. -/
def clear (rf : RegisterFile) (r : Reg) : RegisterFile :=
  if r = .m then
    rf
  else
    match rf.get r, r.pair?.bind Pair.halves? with
    | .half _ _, some (high, low) => ((rf.put high .empty).put low .empty).put r .empty
    | _, _ => rf.put r .empty

/-- Forget a pair. -/
def clearPair (rf : RegisterFile) (p : Pair) : RegisterFile :=
  match p.halves? with
  | some (high, low) => (rf.clear high).clear low
  | none => rf

/-- Forget every register. -/
def clearAll (_ : RegisterFile) : RegisterFile := {}

/-- A register holds a byte. -/
def bind (rf : RegisterFile) (r : Reg) (v : Value) : RegisterFile :=
  if r = .m then rf else (rf.clear r).put r (.scalar v)

/-- A pair holds a word. -/
def bindPair (rf : RegisterFile) (p : Pair) (v : Value) : RegisterFile :=
  match p.halves? with
  | some (high, low) =>
    (((rf.clear high).clear low).put high (.half v .high)).put low (.half v .low)
  | none => rf

/-- A pair holds a byte, extended to a word. -/
def bindExtended (rf : RegisterFile) (p : Pair) (v : Value) : RegisterFile :=
  match p.halves? with
  | some (high, low) => (rf.bind high (.const 0)).bind low v
  | none => rf

/-- A register holds exactly this byte. -/
def holds (rf : RegisterFile) (r : Reg) (v : Value) : Bool :=
  rf.get r = .scalar v

/-- The first register that holds a byte, the accumulator before all others. -/
def findByte? (rf : RegisterFile) (v : Value) : Option Reg :=
  Reg.all.find? (rf.holds · v)

/-- How a pair holds a value. -/
def pairMatch? (rf : RegisterFile) (p : Pair) (v : Value) : Option PairMatch :=
  match p.halves? with
  | none => none
  | some (high, low) =>
    if rf.get high = .half v .high ∧ rf.get low = .half v .low then some .full
    else if rf.get high = .scalar (.const 0) ∧ rf.get low = .scalar v then some .extended
    else none

/-- The first pair that holds a word in full, HL before the others. -/
def findPair? (rf : RegisterFile) (v : Value) : Option Pair :=
  searchOrder.find? fun p => rf.pairMatch? p v = some .full

/-- The first pair that holds a value, in full or extended. -/
def findWide? (rf : RegisterFile) (v : Value) : Option (Pair × PairMatch) :=
  searchOrder.findSome? fun p => (rf.pairMatch? p v).map fun m => (p, m)

/-- The word a pair holds, if its halves agree. -/
def pairValue? (rf : RegisterFile) (p : Pair) : Option Value :=
  match p.halves? with
  | none => none
  | some (high, low) =>
    match rf.get high, rf.get low with
    | .half u .high, .half v .low => if u = v then some u else none
    | _, _ => none

/-- Exchange two pairs. -/
def swapPairs (rf : RegisterFile) (p q : Pair) : RegisterFile :=
  match p.halves?, q.halves? with
  | some (ph, pl), some (qh, ql) =>
    (((rf.put ph (rf.get qh)).put qh (rf.get ph)).put pl (rf.get ql)).put ql (rf.get pl)
  | _, _ => rf

/-- Copy a pair into another. -/
def copyPair (rf : RegisterFile) (source target : Pair) : RegisterFile :=
  match source.halves?, target.halves? with
  | some (sh, sl), some (th, tl) => (rf.put th (rf.get sh)).put tl (rf.get sl)
  | _, _ => rf

/-- Forget the registers whose value satisfies a predicate. -/
def forget (rf : RegisterFile) (p : Value → Bool) : RegisterFile :=
  Reg.all.foldl (fun rf r => if (rf.get r).value?.any p then rf.clear r else rf) rf

/-- The registers that hold some part of a value. -/
def registersWith (rf : RegisterFile) (v : Value) : List Reg :=
  Reg.all.filter fun r => (rf.get r).value? = some v

end RegisterFile

end Accumulator
