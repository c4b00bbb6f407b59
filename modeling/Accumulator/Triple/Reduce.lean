import Accumulator.Triple.Basic

/-!
# Strength reduction

One pass over the triples: adding or subtracting zero disappears, adding or subtracting a small
constant becomes repeated increments or decrements, and a variable is not assigned to itself.
Removing a triple renames later references to it, so the widths are derived again.
-/

namespace Accumulator.Triple

/-- The largest constant that becomes repeated increments. -/
def maxRepetitions : Int := 3

/-- An addition with a literal on the left only is turned around. -/
def literalRight (t : Triple) : Triple :=
  match t.op, t.lhs, t.rhs with
  | .add, .const _, some rhs => if rhs.isConst then t else { t with lhs := rhs, rhs := some t.lhs }
  | _, _, _ => t

/-- What becomes of one triple. -/
inductive Reduced where
  /-- It adds nothing: later references mean its left operand. -/
  | identity (survivor : Operand)
  /-- It assigns a variable to itself. -/
  | selfAssign
  /-- It counts up or down instead. -/
  | counted (t : Triple)
  | same (t : Triple)

/-- The count operand of an increment: none for one step. -/
def countOperand (n : Int) : Option Operand :=
  if n = 1 then none else some (.const n)

/-- An addition or subtraction of `n` as `op`, which counts. -/
def reduceConstant (t : Triple) (op : Op) (n : Int) : Reduced :=
  if n = 0 then .identity t.lhs
  else if 1 ≤ n ∧ n ≤ maxRepetitions then .counted { t with op := op, rhs := countOperand n }
  else .same t

/-- A plain assignment of a variable to itself. -/
def isSelfAssign (t : Triple) : Bool :=
  t.op = .assign && !t.throughPointer && t.lhs.var?.isSome && t.rhs = some t.lhs

/-- Reduce one triple. -/
def reduceOne (triple : Triple) : Reduced :=
  let t := triple.literalRight
  match t.op, t.rhs with
  | .add, some (.const n) => t.reduceConstant .inc n
  | .sub, some (.const n) => t.reduceConstant .dec n
  | _, _ => if t.isSelfAssign then .selfAssign else .same t

/-- Result of the pass. -/
structure Reduction where
  triples : List Triple := []
  /-- A triple was removed or became a count. -/
  changed : Bool := false
  /-- An identity was removed, so later references changed. -/
  renamed : Bool := false

/-- The pass, before widths are derived again. -/
def reduceAll : List Triple → Reduction
  | [] => {}
  | t :: rest =>
    match t.reduceOne with
    | .identity survivor =>
      let r := reduceAll (rest.map (·.rename t.id survivor))
      { r with changed := true, renamed := true }
    | .selfAssign =>
      let r := reduceAll rest
      { r with changed := true }
    | .counted t =>
      let r := reduceAll rest
      { r with triples := t :: r.triples, changed := true }
    | .same t =>
      let r := reduceAll rest
      { r with triples := t :: r.triples }
termination_by triples => triples.length

/-- Derive the width of each triple from the triples before it. `done` holds those, in order. -/
def deriveWidths (symbols : SymbolTable) (done : List Triple) : List Triple → List Triple
  | [] => done
  | t :: rest =>
    deriveWidths symbols (done ++ [{ t with width := t.derivedWidth done symbols }]) rest

/-- Strength reduction, and whether it changed anything. -/
def reduce (symbols : SymbolTable) (triples : List Triple) : List Triple × Bool :=
  let r := reduceAll triples
  (if r.renamed then deriveWidths symbols [] r.triples else r.triples, r.changed)

end Accumulator.Triple
