import Accumulator.Triple.Basic

/-!
# Text of triples

One line per triple: its number, the operands around the operator, and after a semicolon what
sets it apart from a plain byte triple.
-/

namespace Accumulator

/-- A literal in decimal, a variable by name, a result as `t` and its number. -/
def Operand.text : Operand → String
  | const value => toString value
  | var name => name
  | temp id => s!"t{id}"

/-- The three letter name of an operator. -/
def Op.name : Op → String
  | add => "add"
  | sub => "sub"
  | shl => "shl"
  | shr => "shr"
  | eq => "eql"
  | ne => "neq"
  | gt => "grt"
  | lt => "lst"
  | ge => "gre"
  | le => "lse"
  | xor => "xor"
  | and => "and"
  | or => "oro"
  | inv => "inv"
  | inc => "inc"
  | dec => "dec"
  | assign => "asg"
  | index => "idx"
  | address => "adr"
  | deref => "ref"

namespace Triple

/-- What sets a triple apart from a plain byte triple. -/
def flags (t : Triple) : List String :=
  (if t.width = .word then ["word"] else []) ++
  (if t.addressOnly then ["adr_only"] else []) ++
  (if t.noSave then ["no_save"] else []) ++
  (if t.throughPointer then ["ref_assign"] else [])

/-- A triple on one line. -/
def text (t : Triple) : String :=
  let expression := s!"t{t.id}: {t.lhs.text} {t.op.name}"
  let expression := match t.rhs with
    | some rhs => s!"{expression} {rhs.text}"
    | none => expression
  match t.flags with
  | [] => expression
  | flags => s!"{expression} ; " ++ " ".intercalate flags

/-- A list of triples, one per line. -/
def listing (triples : List Triple) : String :=
  String.join (triples.map fun t => t.text ++ "\n")

end Triple

end Accumulator
