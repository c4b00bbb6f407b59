import Accumulator.Width

/-!
# Hexadecimal words
-/

namespace Accumulator

/-- The four hexadecimal digits of a word, in lower case. -/
def hexDigits (w : Word) : List Char :=
  (Nat.toDigits 16 w.toNat).leftpad 4 '0'

/-- A word as messages write it: `0xf000`. -/
def hexText (w : Word) : String :=
  "0x" ++ String.ofList (hexDigits w)

/-- A word in assembler notation: `0100H`, and `0F000H` because a number starts with a digit. -/
def hexLiteral (w : Word) : String :=
  let digits := (hexDigits w).map Char.toUpper
  let digits := if digits.head?.any Char.isAlpha then '0' :: digits else digits
  String.ofList digits ++ "H"

end Accumulator
