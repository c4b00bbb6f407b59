import Accumulator.Width

/-!
# Origins

The addresses on the command line: `0x1F00`, `1F00H`, or decimal. Blanks around them are ignored.
-/

namespace Accumulator

/-- Why a text is no address. -/
inductive OriginError where
  | empty
  | invalidDigit
  | tooLarge
  deriving DecidableEq

/-- The reason in words. -/
def OriginError.message : OriginError → String
  | empty => "cannot parse integer from empty string"
  | invalidDigit => "invalid digit found in string"
  | tooLarge => "number too large to fit in target type"

namespace Origin

/-- Characters with the Unicode property `White_Space`. -/
def isSpace (c : Char) : Bool :=
  let n := c.toNat
  (0x09 ≤ n && n ≤ 0x0D) || n = 0x20 || n = 0x85 || n = 0xA0 || n = 0x1680 ||
    (0x2000 ≤ n && n ≤ 0x200A) || n = 0x2028 || n = 0x2029 || n = 0x202F || n = 0x205F ||
    n = 0x3000

/-- Characters without the white space around them. -/
def trim (cs : List Char) : List Char :=
  ((cs.dropWhile isSpace).reverse.dropWhile isSpace).reverse

/-- The value of a digit in a base of at most 16. -/
def digit? (base : Nat) (c : Char) : Option Nat :=
  let value? :=
    if '0' ≤ c ∧ c ≤ '9' then some (c.toNat - '0'.toNat)
    else if 'a' ≤ c ∧ c ≤ 'f' then some (c.toNat - 'a'.toNat + 10)
    else if 'A' ≤ c ∧ c ≤ 'F' then some (c.toNat - 'A'.toNat + 10)
    else none
  value?.filter (· < base)

/-- Continue a number with digits. The first fault counts. -/
def readDigits (base : Nat) (number : Nat) : List Char → Except OriginError Nat
  | [] => .ok number
  | c :: cs =>
    match digit? base c with
    | none => .error .invalidDigit
    | some value =>
      let number := base * number + value
      if number < 2 ^ 16 then readDigits base number cs else .error .tooLarge

/-- A number with an optional plus sign. -/
def readNumber (base : Nat) : List Char → Except OriginError Nat
  | [] => .error .empty
  | ['+'] => .error .invalidDigit
  | '+' :: cs => readDigits base 0 cs
  | cs => readDigits base 0 cs

/-- The address that characters write. -/
def read (cs : List Char) : Except OriginError Word :=
  let number :=
    match cs with
    | '0' :: 'x' :: digits | '0' :: 'X' :: digits => readNumber 16 digits
    | _ =>
      if cs.getLast? = some 'H' ∨ cs.getLast? = some 'h' then readNumber 16 cs.dropLast
      else readNumber 10 cs
  number.map (BitVec.ofNat 16)

end Origin

end Accumulator
