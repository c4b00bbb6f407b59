import Accumulator.Symbol

/-!
# The data segment

What reserves and fills the memory of a symbol. A directive has a size, so the space that a symbol
gets can be compared with the space that it occupies.
-/

namespace Accumulator

/-- A data directive. -/
inductive Directive where
  /-- Numbers of one width. -/
  | values (width : Width) (items : List Nat)
  /-- The bytes of a text. -/
  | text (chars : String)
  /-- A number of bytes that are not set. -/
  | space (bytes : Nat)
  deriving DecidableEq

/-- Number of bytes a directive fills. -/
def Directive.size : Directive → Nat
  | values width items => width.size * items.length
  | text chars => chars.utf8ByteSize
  | space bytes => bytes

namespace Symbol

/-- Space for the elements that are missing when `provided` of them have values. -/
def padding (s : Symbol) (provided : Nat) : List Directive :=
  let dimension := s.dimension.getD 1
  if provided < dimension then [.space ((dimension - provided) * s.width.size)] else []

/-- Values reduced to the width of the symbol. -/
def numbers (s : Symbol) (items : List Int) : Directive :=
  .values s.width (items.map s.width.truncate)

/-- The directives of a symbol. An array without values is only reserved; a variable without a
value is zero. -/
def directives (s : Symbol) : List Directive :=
  match s.initial with
  | none => if s.isArray then [.space s.size] else s.numbers [0] :: s.padding 1
  | some (.scalar value) => s.numbers [value] :: s.padding 1
  | some (.array []) => [.space s.size]
  | some (.array items) => s.numbers items :: s.padding items.length
  | some (.text chars) => .text chars :: s.padding chars.utf8ByteSize

end Symbol

end Accumulator
