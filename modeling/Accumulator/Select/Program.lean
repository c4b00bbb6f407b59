import Accumulator.Select.Access
import Accumulator.Select.Arithmetic

/-!
# Instructions of a program

Every triple is selected in order, and at the end the save slot is settled.
-/

namespace Accumulator

namespace Select

/-- Select the instructions of one triple. -/
def selectTriple (t : Triple) : Selecting Unit :=
  match t.op with
  | .assign => selectAssign t
  | .index => selectIndex t
  | .address => selectAddress t
  | .deref => selectDeref t
  | _ =>
    match t.width with
    | .byte => selectByte t
    | .word => selectWord t

/-- Make the triple at a position the current one. -/
def enter (pos : Nat) (t : Triple) : Selecting Unit :=
  modify fun s => { s with pos := pos, pinned := operandValues s.triples t }

/-- Select triples in order, the first of them at a position. -/
def selectFrom (pos : Nat) : List Triple → Selecting Unit
  | [] => modify fun s => { s with pos := pos }
  | t :: rest => do
    enter pos t
    dropDeadSpill
    selectTriple t
    selectFrom (pos + 1) rest

/-- Select all triples of the state. -/
def selectAll : Selecting Unit := do
  selectFrom 0 (← get).triples
  settleStack

end Select

/-- The instructions of a program. -/
def Program.instructions (p : Program) : Except Failure (List Instr) :=
  match Select.selectAll { triples := p.triples, symbols := p.symbols } with
  | .ok _ s => .ok s.code
  | .error failure _ => .error failure

end Accumulator
