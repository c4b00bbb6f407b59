import Accumulator.Listing

/-!
# Reading routines

A library routine is text in a listing, and the machine runs it line by line from that text. A line
is read back into the action it stands for. Only the instructions that routines are made of are
known.
-/

namespace Accumulator

/-- The fields of a text between commas that are followed by a blank. -/
def Listing.fields : List Char → List (List Char)
  | [] => [[]]
  | ',' :: ' ' :: rest => [] :: fields rest
  | c :: rest => (fields rest).modifyHead (c :: ·)

/-- The operands in a line. An empty field is none. -/
def Listing.Line.arguments (line : Line) : List String :=
  ((fields line.operands.toList).filter fun field => !field.isEmpty).map String.ofList

namespace Routine

/-- Why a line of a routine cannot be read. -/
inductive ReadError where
  | unknownRegister (name : String)
  | missingOperand (mnemonic : String)
  | unpaired (name : String)
  | unsupported (mnemonic : String)
  deriving DecidableEq

/-- The text of an error. -/
def ReadError.message : ReadError → String
  | unknownRegister name => s!"unknown register {name}"
  | missingOperand mnemonic => s!"{mnemonic} is missing an operand"
  | unpaired name => s!"DAD of {name}"
  | unsupported mnemonic => s!"unsupported library instruction {mnemonic}"

/-- The register with a name. -/
def readRegister : String → Except ReadError Reg
  | "A" => .ok .a
  | "B" => .ok .b
  | "C" => .ok .c
  | "D" => .ok .d
  | "E" => .ok .e
  | "H" => .ok .h
  | "L" => .ok .l
  | "M" => .ok .m
  | name => .error (.unknownRegister name)

/-- The register that is an operand of an instruction. -/
def readOperand (mnemonic : String) (arguments : List String) (index : Nat) :
    Except ReadError Reg :=
  match arguments[index]? with
  | some name => readRegister name
  | none => .error (.missingOperand mnemonic)

/-- The instruction with a mnemonic and operands. A pair is named by a register of it. -/
def readInstr (mnemonic : String) (arguments : List String) : Except ReadError Instr :=
  let reg := readOperand mnemonic arguments
  match mnemonic with
  | "MOV" => do return .mov (← reg 0) (← reg 1)
  | "INR" => do return .inr (← reg 0)
  | "DCR" => do return .dcr (← reg 0)
  | "ADD" => do return .alu .add (← reg 0)
  | "SUB" => do return .alu .sub (← reg 0)
  | "ORA" => do return .alu .or (← reg 0)
  | "RAL" => return .ral
  | "RAR" => return .rar
  | "DAD" => do
    match (← reg 0).pair? with
    | some p => return .dad p
    | none => throw (.unpaired (arguments.headD ""))
  | _ => throw (.unsupported mnemonic)

/-- The action of a line. -/
def readAction (line : Listing.Line) : Except ReadError Action :=
  match line.mnemonic with
  | "RET" => return .ret
  | "RZ" => return .retZero
  | "JMP" => return .goto line.operands
  | "SBB" => do return .subtractBorrow (← readRegister (line.arguments.headD ""))
  | mnemonic => do return .instr (← readInstr mnemonic line.arguments)

/-- A line as the machine runs it. -/
def readLine (line : Listing.Line) : Except ReadError Line := do
  return { label := if line.label.isEmpty then none else some line.label
           action := ← readAction line }

end Routine

end Accumulator
