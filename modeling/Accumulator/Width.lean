/-!
# Widths

The target computes on bytes and on words. A `Width` says which of the two an operand or a
result is, and `Width.ofConstant` says which one a literal needs.
-/

namespace Accumulator

/-- One machine byte. -/
abbrev Byte := BitVec 8

/-- One machine word: a register pair or an address. -/
abbrev Word := BitVec 16

/-- Operand width on the target. -/
inductive Width where
  /-- 8 bits, held in one register. -/
  | byte
  /-- 16 bits, held in a register pair. -/
  | word
  deriving DecidableEq

namespace Width

/-- Number of bits of a value. -/
def bits : Width → Nat
  | byte => 8
  | word => 16

/-- Number of bytes of a value in memory. -/
def size : Width → Nat
  | byte => 1
  | word => 2

/-- The largest unsigned value. -/
def mask (w : Width) : Nat :=
  (BitVec.allOnes w.bits).toNat

/-- The wider of two widths. -/
def max : Width → Width → Width
  | byte, byte => byte
  | _, _ => word

/-- A literal between -128 and 255 is a byte, any other a word. -/
def ofConstant (value : Int) : Width :=
  if -128 ≤ value ∧ value ≤ 255 then byte else word

/-- `value` reduced to the unsigned range of the width. -/
def truncate (w : Width) (value : Int) : Nat :=
  (BitVec.ofInt w.bits value).toNat

/-- The width as it is written in an event. -/
def name : Width → String
  | byte => "byte"
  | word => "word"

/-- The width with the given name. -/
def ofName? : String → Option Width
  | "byte" => some byte
  | "word" => some word
  | _ => none

end Width

/-- The low byte of a literal. -/
def lowByte (value : Int) : Byte :=
  BitVec.ofInt 8 value

/-- Bits 8 to 15 of a literal. -/
def highByte (value : Int) : Byte :=
  BitVec.ofInt 8 (value / 256)

end Accumulator
