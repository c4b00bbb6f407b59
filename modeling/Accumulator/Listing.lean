import Accumulator.Data
import Accumulator.Hex
import Accumulator.Instr.Text

/-!
# Assembler text

A program as the assembler reads it: labels in the first eight columns, mnemonics in the next six,
then operands. The code comes first, then the routines it calls, then the data.
-/

namespace Accumulator

/-- A text filled up with blanks to a number of characters. -/
def padTo (columns : Nat) (text : String) : String :=
  text.pushn ' ' (columns - text.length)

/-- Where the code and the data are loaded. -/
structure Origins where
  code : Word := 0x0100
  data : Word := 0x1000
  deriving DecidableEq

namespace Listing

/-- One line of source. An empty label or operand field is left out. -/
structure Line where
  label : String := ""
  mnemonic : String
  operands : String := ""
  deriving DecidableEq

/-- The label column. A label that does not fit is followed by one blank; whether it fits goes by
its bytes. -/
def labelColumn (label : String) : String :=
  if label.isEmpty then
    padTo 8 ""
  else
    let tag := label ++ ":"
    if 8 ≤ tag.utf8ByteSize then tag ++ " " else padTo 8 tag

/-- A line with its end. -/
def Line.render (line : Line) : String :=
  let rest :=
    if line.operands.isEmpty then line.mnemonic else padTo 6 line.mnemonic ++ line.operands
  labelColumn line.label ++ rest ++ "\n"

/-- Operands as they stand in a line. -/
def operandField (operands : List String) : String :=
  ", ".intercalate operands

/-- Set the start of what follows. -/
def origin (address : Word) : String :=
  Line.render { mnemonic := "ORG", operands := hexLiteral address }

/-- A text between quotes; a quote inside is written twice. -/
def quote (chars : String) : String :=
  let doubled := chars.toList.flatMap fun c => if c = '\'' then ['\'', '\''] else [c]
  "'" ++ String.ofList doubled ++ "'"

end Listing

/-- An instruction as a line. A comment takes the whole line. -/
def Instr.line (i : Instr) : Except Overflow String := do
  match i with
  | .comment note => return Listing.labelColumn "" ++ s!"; {note}\n"
  | _ =>
    let operands ← i.operands
    return Listing.Line.render
      { mnemonic := i.mnemonic, operands := Listing.operandField operands }

/-- An operation of a routine under a label. -/
def Routine.Action.line (label : String) : Routine.Action → Except Overflow Listing.Line
  | .instr i => do
    return { label, mnemonic := i.mnemonic, operands := Listing.operandField (← i.operands) }
  | .subtractBorrow src => .ok { label, mnemonic := "SBB", operands := src.name }
  | .ret => .ok { label, mnemonic := "RET" }
  | .retZero => .ok { label, mnemonic := "RZ" }
  | .goto target => .ok { label, mnemonic := "JMP", operands := target }

/-- The source lines of a routine. -/
def Routine.lines (r : Routine) : Except Overflow (List Listing.Line) :=
  r.body.mapM fun line => line.action.line (line.label.getD "")

/-- A directive as a line. -/
def Directive.line (label : String) : Directive → Listing.Line
  | .values .byte items =>
    { label, mnemonic := "DB", operands := Listing.operandField (items.map toString) }
  | .values .word items =>
    { label, mnemonic := "DW", operands := Listing.operandField (items.map toString) }
  | .text chars => { label, mnemonic := "DB", operands := Listing.quote chars }
  | .space bytes => { label, mnemonic := "DS", operands := toString bytes }

/-- The source lines of a symbol; its name labels the first. -/
def Symbol.lines (s : Symbol) : List Listing.Line :=
  match s.directives with
  | [] => []
  | first :: rest => first.line s.name :: rest.map (Directive.line "")

namespace Listing

/-- Lines one after the other. -/
def renderAll (lines : List Line) : String :=
  String.join (lines.map Line.render)

/-- The text of a whole program: code and a halt, routines, and the data in declaration order. -/
def program (code : List Instr) (routines : List Routine) (symbols : SymbolTable)
    (origins : Origins) : Except Overflow String := do
  let codeLines ← code.mapM Instr.line
  let halt ← Instr.hlt.line
  let routineLines ← routines.mapM Routine.lines
  return origin origins.code ++ String.join codeLines ++ halt ++ renderAll routineLines.flatten
    ++ origin origins.data ++ renderAll (symbols.toList.flatMap Symbol.lines)

end Listing

end Accumulator
