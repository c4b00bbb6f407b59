import Accumulator.Overflow
import Accumulator.Routine

/-!
# Text of instructions

Mnemonics and operands as the assembler reads them. A negative symbol offset is printed as a
subtraction, which needs its opposite; printing reports an overflow when there is none.
-/

namespace Accumulator

/-- The assembler's name of a register. -/
def Reg.name : Reg → String
  | a => "A"
  | b => "B"
  | c => "C"
  | d => "D"
  | e => "E"
  | h => "H"
  | l => "L"
  | m => "M"

/-- The assembler's name of a pair. -/
def Pair.name : Pair → String
  | b => "B"
  | d => "D"
  | h => "H"
  | sp => "SP"
  | psw => "PSW"

/-- Mnemonic of the jump on a condition. -/
def Cond.jumpMnemonic : Cond → String
  | z => "JZ"
  | nz => "JNZ"
  | c => "JC"
  | nc => "JNC"

/-- Mnemonic of the form that takes a register. -/
def AluOp.registerMnemonic : AluOp → String
  | add => "ADD"
  | sub => "SUB"
  | and => "ANA"
  | or => "ORA"
  | xor => "XRA"
  | cmp => "CMP"

/-- Mnemonic of the form that takes an immediate. -/
def AluOp.immediateMnemonic : AluOp → String
  | add => "ADI"
  | sub => "SUI"
  | and => "ANI"
  | or => "ORI"
  | xor => "XRI"
  | cmp => "CPI"

/-- A number is printed modulo 2^16, a symbol with its offset unless that is zero. -/
def Imm.text : Imm → Except Overflow String
  | num value => .ok (toString (Width.word.truncate value))
  | sym name offset =>
    if offset = 0 then
      .ok name
    else if offset < 0 then do
      let distance ← checkedNeg offset
      return s!"{name}-{distance}"
    else
      .ok s!"{name}+{offset}"

namespace Instr

/-- The mnemonic of an instruction. -/
def mnemonic : Instr → String
  | mov .. => "MOV"
  | mvi .. => "MVI"
  | lda _ => "LDA"
  | sta _ => "STA"
  | ldax _ => "LDAX"
  | stax _ => "STAX"
  | alu op _ => op.registerMnemonic
  | aluImm op _ => op.immediateMnemonic
  | inr _ => "INR"
  | dcr _ => "DCR"
  | cma => "CMA"
  | ral => "RAL"
  | rar => "RAR"
  | lxi .. => "LXI"
  | lhld _ => "LHLD"
  | shld _ => "SHLD"
  | inx _ => "INX"
  | dcx _ => "DCX"
  | dad _ => "DAD"
  | xchg => "XCHG"
  | xthl => "XTHL"
  | push _ => "PUSH"
  | pop _ => "POP"
  | jump cond _ => cond.jumpMnemonic
  | call _ => "CALL"
  | hlt => "HLT"
  | comment _ => ";"

/-- The operands of an instruction, in order. -/
def operands : Instr → Except Overflow (List String)
  | mov dst src => .ok [dst.name, src.name]
  | mvi dst value => .ok [dst.name, toString value.toNat]
  | lda address | sta address | lhld address | shld address => do return [← address.text]
  | ldax pair | stax pair | inx pair | dcx pair | dad pair | push pair | pop pair =>
    .ok [pair.name]
  | alu _ reg | inr reg | dcr reg => .ok [reg.name]
  | aluImm _ value => .ok [toString value.toNat]
  | lxi pair value => do return [pair.name, ← value.text]
  | jump _ offset => .ok [s!"$+{offset}"]
  | call routine => .ok [routine.label]
  | comment text => .ok [text]
  | cma | ral | rar | xchg | xthl | hlt => .ok []

/-- The instruction on one line, operands separated by commas. -/
def text (i : Instr) : Except Overflow String := do
  match i with
  | comment note => return s!"; {note}"
  | _ =>
    match ← i.operands with
    | [] => return i.mnemonic
    | args => return s!"{i.mnemonic} " ++ ",".intercalate args

end Instr

end Accumulator
