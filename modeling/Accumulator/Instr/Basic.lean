import Accumulator.Width

/-!
# Instructions

The registers and instructions of the target, an accumulator machine with the 8080 register
file. Arithmetic goes through `a`; `h` and `l` form the index pair, which addresses the byte that
instructions name as `m`.
-/

namespace Accumulator

/-- Byte registers, with `m` for the byte that HL points at. -/
inductive Reg where
  | a | b | c | d | e | h | l
  /-- The memory byte at the address in HL; not a register. -/
  | m
  deriving DecidableEq

/-- Register pairs, named by their high register. -/
inductive Pair where
  /-- BC. -/
  | b
  /-- DE. -/
  | d
  /-- HL, the index pair and the accumulator of word arithmetic. -/
  | h
  /-- The stack pointer. -/
  | sp
  /-- The accumulator and the flags. -/
  | psw
  deriving DecidableEq

namespace Reg

/-- The registers, in the order in which they are searched. -/
def all : List Reg := [a, b, c, d, e, h, l]

/-- Position among the registers; `m` has none. -/
def index? : Reg → Option Nat
  | a => some 0
  | b => some 1
  | c => some 2
  | d => some 3
  | e => some 4
  | h => some 5
  | l => some 6
  | m => none

/-- The pair a register is half of. -/
def pair? : Reg → Option Pair
  | b | c => some .b
  | d | e => some .d
  | h | l => some .h
  | a | m => none

/-- The registers that hold intermediate bytes. -/
def isWork : Reg → Bool
  | b | c | d | e => true
  | _ => false

end Reg

/-- High and low register of a general purpose pair. -/
def Pair.halves? : Pair → Option (Reg × Reg)
  | b => some (.b, .c)
  | d => some (.d, .e)
  | h => some (.h, .l)
  | sp | psw => none

/-- Conditions of the conditional jumps. -/
inductive Cond where
  | z | nz | c | nc
  deriving DecidableEq

/-- The opposite condition. -/
def Cond.negate : Cond → Cond
  | z => nz
  | nz => z
  | c => nc
  | nc => c

/-- An address or a 16-bit immediate. A number is kept as it was given, so numbers that are equal
modulo 2^16 are different immediates. -/
inductive Imm where
  | num (value : Int)
  | sym (name : String) (offset : Int)
  deriving DecidableEq

namespace Imm

/-- The address of a symbol. -/
def ofSymbol (name : String) : Imm := sym name 0

/-- The symbol an immediate refers to. -/
def symbol? : Imm → Option String
  | num _ => none
  | sym name _ => some name

end Imm

/-- Accumulator operations; each has a register and an immediate form. -/
inductive AluOp where
  | add | sub | and | or | xor | cmp
  deriving DecidableEq

/-- The operands of the operation may be exchanged. -/
def AluOp.isCommutative : AluOp → Bool
  | add | and | or | xor => true
  | sub | cmp => false

/-- Library routines that generated code may call. -/
inductive Routine where
  /-- `a` shifted left by `c`. -/
  | shiftLeft
  /-- `a` shifted right by `c`. -/
  | shiftRight
  /-- HL shifted left by `c`. -/
  | shiftLeftWord
  /-- HL shifted right by `c`. -/
  | shiftRightWord
  /-- HL minus DE, with carry on borrow. -/
  | subtractWord
  deriving DecidableEq

/-- All routines, in the order in which they are appended to a program. -/
def Routine.all : List Routine :=
  [shiftLeft, shiftRight, shiftLeftWord, shiftRightWord, subtractWord]

/-- Target instructions. -/
inductive Instr where
  | mov (dst src : Reg)
  | mvi (dst : Reg) (value : Byte)
  | lda (address : Imm)
  | sta (address : Imm)
  | ldax (pair : Pair)
  | stax (pair : Pair)
  | alu (op : AluOp) (src : Reg)
  | aluImm (op : AluOp) (value : Byte)
  | inr (reg : Reg)
  | dcr (reg : Reg)
  | cma
  | ral
  | rar
  | lxi (pair : Pair) (value : Imm)
  | lhld (address : Imm)
  | shld (address : Imm)
  | inx (pair : Pair)
  | dcx (pair : Pair)
  | dad (pair : Pair)
  | xchg
  | xthl
  | push (pair : Pair)
  | pop (pair : Pair)
  /-- Jump relative to the first byte of the instruction. -/
  | jump (cond : Cond) (offset : Int)
  | call (routine : Routine)
  | hlt
  | comment (text : String)
  deriving DecidableEq

namespace Instr

/-- Number of bytes of the encoded instruction. -/
def size : Instr → Nat
  | mvi .. | aluImm .. => 2
  | lda _ | sta _ | lxi .. | lhld _ | shld _ | jump .. | call _ => 3
  | comment _ => 0
  | _ => 1

/-- A comment takes no space and does nothing. -/
def isComment : Instr → Bool
  | comment _ => true
  | _ => false

/-- The absolute address an instruction loads from or stores to, with the number of bytes. -/
def absoluteTarget? : Instr → Option (Imm × Nat)
  | lda address | sta address => some (address, 1)
  | lhld address | shld address => some (address, 2)
  | _ => none

end Instr

end Accumulator
