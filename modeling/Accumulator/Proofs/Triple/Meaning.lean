import Accumulator.Proofs.Triple.Storage
import Accumulator.Triple.Fold

/-!
# What triples mean

Triples are carried out in order over the memory of the machine, with every variable where the
machine has it. A triple is computed at its width: operands are reduced to it, bytes are extended
by zeros, and the result is reduced to the width of the result. An array element and what a
pointer points at leave their place behind as well, so that a later triple can take its address or
assign to it.

Nothing is said about triples that make no sense: a missing operand, an assignment to a sum, an
element that is not there. The interpretation stops with `none` then.
-/

namespace Accumulator

/-- What a triple leaves for later ones. -/
structure Result where
  value : Word
  /-- Where the value is, if it was read from memory. -/
  place : Option Place := none
  deriving DecidableEq

/-- Memory, and the results of triples by their numbers. -/
structure Store where
  memory : Memory
  results : Nat → Option Result := fun _ => none

/-- Remember the result of a triple. -/
def Store.record (s : Store) (id : Nat) (r : Result) : Store :=
  { s with results := fun j => if j = id then some r else s.results j }

namespace Operand

/-- The value of an operand. -/
def value? (symbols : SymbolTable) (s : Store) : Operand → Option Word
  | const value => some (BitVec.ofInt 16 value)
  | var name => (symbols.place? name).map (·.read s.memory)
  | temp id => (s.results id).map (·.value)

/-- The place of an operand. -/
def place? (symbols : SymbolTable) (s : Store) : Operand → Option Place
  | const _ => none
  | var name => symbols.place? name
  | temp id => (s.results id).bind (·.place)

end Operand

/-- A binary operator at some width. Only the low byte of a shift count matters. -/
def Op.evaluate? {n : Nat} (op : Op) (a b : BitVec n) : Option (BitVec n) :=
  match op with
  | .shl => some (a <<< (b.setWidth 8).toNat)
  | .shr => some (a >>> (b.setWidth 8).toNat)
  | _ => op.onBits? a b

namespace Triple

/-- The outcome of an operator on the values of its operands, at the width of the triple. -/
def combine? (t : Triple) : List Word → Option (BitVec t.width.bits)
  | [a] =>
    match t.op with
    | .inv => some (~~~a.setWidth _)
    | .inc => some (a.setWidth _ + BitVec.ofNat _ t.repetitions)
    | .dec => some (a.setWidth _ - BitVec.ofNat _ t.repetitions)
    | _ => none
  | [a, b] => t.op.evaluate? (a.setWidth _) (b.setWidth _)
  | _ => none

/-- The value of an operation. -/
def operation? (symbols : SymbolTable) (s : Store) (t : Triple) : Option Word := do
  let values ← t.operands.mapM (·.value? symbols s)
  return t.resultWidth.narrow ((← t.combine? values).setWidth 16)

/-- The place that an element or a pointer names. A pointer points at a byte. -/
def source? (symbols : SymbolTable) (s : Store) (t : Triple) : Option Place :=
  match t.op, t.lhs, t.rhs with
  | .index, .var name, some index => do symbols.element? name (← index.value? symbols s)
  | .deref, pointer, _ => (pointer.value? symbols s).map fun a => { address := a, width := .byte }
  | _, _, _ => none

/-- The result of a triple that is no assignment. -/
def result? (symbols : SymbolTable) (s : Store) (t : Triple) : Option Result :=
  match t.op with
  | .assign => none
  | .index | .deref =>
    (t.source? symbols s).map fun p => { value := p.read s.memory, place := some p }
  | .address => (t.lhs.place? symbols s).map fun p => { value := p.address }
  | _ => (t.operation? symbols s).map fun value => { value }

/-- The place that an assignment goes to. -/
def target? (symbols : SymbolTable) (s : Store) (t : Triple) : Option Place :=
  if t.throughPointer then
    (t.lhs.value? symbols s).map fun a => { address := a, width := .byte }
  else
    t.lhs.place? symbols s

/-- The memory after an assignment. -/
def assigned? (symbols : SymbolTable) (s : Store) (t : Triple) : Option Memory := do
  let value ← (← t.rhs).value? symbols s
  let p ← t.target? symbols s
  return p.write s.memory (t.width.narrow value)

/-- Carry out one triple. -/
def step (symbols : SymbolTable) (s : Store) (t : Triple) : Option Store :=
  if t.op = .assign then
    (t.assigned? symbols s).map fun memory => { s with memory }
  else
    (t.result? symbols s).map (s.record t.id)

/-- Carry out triples in order. -/
def run (symbols : SymbolTable) (triples : List Triple) (s : Store) : Option Store :=
  triples.foldlM (step symbols) s

end Triple

/-- The memory that a program leaves. -/
def Program.meaning? (p : Program) (memory : Memory) : Option Memory :=
  (Triple.run p.symbols p.triples { memory }).map (·.memory)

end Accumulator
