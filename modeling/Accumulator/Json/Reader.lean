import Accumulator.Json.Basic
import Accumulator.Json.Magnitude

/-!
# Reading JSON

A reader takes a value off the front of a list of characters and returns what is left. Values may
be nested 127 deep. Strings hold no control characters and no unpaired surrogates, and a number
that is too large for a double is refused.
-/

namespace Accumulator.Json

/-- The blanks between tokens. -/
def isBlank (c : Char) : Bool :=
  c = ' ' || c = '\n' || c = '\t' || c = '\r'

/-- What follows the blanks. -/
def skipBlanks (cs : List Char) : List Char :=
  cs.dropWhile isBlank

/-- What follows a word. -/
def afterWord? : (word cs : List Char) → Option (List Char)
  | [], cs => some cs
  | w :: word, c :: cs => if w = c then afterWord? word cs else none
  | _ :: _, [] => none

/-! ## Numbers -/

/-- The digits after a point, if there is one. At least one digit follows it. -/
def readFraction (cs : List Char) : Option (List Char × List Char) :=
  match cs with
  | '.' :: cs =>
    let digits := cs.takeWhile Char.isDigit
    if digits.isEmpty then none else some (digits, cs.dropWhile Char.isDigit)
  | _ => some ([], cs)

/-- The exponent, if there is one. -/
def readExponent (cs : List Char) : Option (Option Int × List Char) :=
  match cs with
  | 'e' :: cs | 'E' :: cs =>
    let (isNegative, cs) :=
      match cs with
      | '-' :: cs => (true, cs)
      | '+' :: cs => (false, cs)
      | _ => (false, cs)
    let digits := cs.takeWhile Char.isDigit
    if digits.isEmpty then
      none
    else
      let size : Int := ofDigits digits
      some (some (if isNegative then -size else size), cs.dropWhile Char.isDigit)
  | _ => some (none, cs)

/-- Read a number without its sign. The digits before the point do not start with a zero unless
they are just that. -/
def readNumber (isNegative : Bool) (cs : List Char) : Option (Json × List Char) := do
  let whole := cs.takeWhile Char.isDigit
  if whole.isEmpty || (1 < whole.length && whole.head? = some '0') then
    none
  let (fraction, cs) ← readFraction (cs.dropWhile Char.isDigit)
  let (exponent, cs) ← readExponent cs
  if (Decimal.ofParts whole fraction (exponent.getD 0)).isTooLarge then
    none
  let size : Int := ofDigits whole
  if !fraction.isEmpty || exponent.isSome || (isNegative && size = 0) then
    return (.decimal, cs)
  return (.int (if isNegative then -size else size), cs)

/-! ## Strings -/

/-- The value of a hexadecimal digit. -/
def hexValue? (c : Char) : Option Nat :=
  if '0' ≤ c ∧ c ≤ '9' then some (c.toNat - '0'.toNat)
  else if 'a' ≤ c ∧ c ≤ 'f' then some (c.toNat - 'a'.toNat + 10)
  else if 'A' ≤ c ∧ c ≤ 'F' then some (c.toNat - 'A'.toNat + 10)
  else none

/-- The code unit that four hexadecimal digits write. -/
def codeUnit? (a b c d : Char) : Option Nat := do
  return 4096 * (← hexValue? a) + 256 * (← hexValue? b) + 16 * (← hexValue? c) + (← hexValue? d)

/-- The character of a code unit that is not a surrogate. -/
def ofUnit? (unit : Nat) : Option Char :=
  if 0xD800 ≤ unit ∧ unit ≤ 0xDFFF then none else some (Char.ofNat unit)

/-- The character of a high and a low surrogate. -/
def ofSurrogates? (high low : Nat) : Option Char :=
  if 0xD800 ≤ high ∧ high ≤ 0xDBFF ∧ 0xDC00 ≤ low ∧ low ≤ 0xDFFF then
    some (Char.ofNat (0x10000 + 0x400 * (high - 0xD800) + (low - 0xDC00)))
  else
    none

/-- The character that a letter after a backslash stands for. -/
def escaped? : Char → Option Char
  | '"' => some '"'
  | '\\' => some '\\'
  | '/' => some '/'
  | 'b' => some '\x08'
  | 'f' => some '\x0c'
  | 'n' => some '\n'
  | 'r' => some '\r'
  | 't' => some '\t'
  | _ => none

/-- Read the characters of a string up to its closing quote. -/
def readChars : List Char → Option (List Char × List Char)
  | [] => none
  | '"' :: cs => some ([], cs)
  | '\\' :: 'u' :: a :: b :: c :: d :: '\\' :: 'u' :: p :: q :: r :: s :: cs => do
    let unit ← codeUnit? a b c d
    match ofUnit? unit with
    | some char =>
      let (chars, rest) ← readChars ('\\' :: 'u' :: p :: q :: r :: s :: cs)
      return (char :: chars, rest)
    | none =>
      let char ← ofSurrogates? unit (← codeUnit? p q r s)
      let (chars, rest) ← readChars cs
      return (char :: chars, rest)
  | '\\' :: 'u' :: a :: b :: c :: d :: cs => do
    let char ← ofUnit? (← codeUnit? a b c d)
    let (chars, rest) ← readChars cs
    return (char :: chars, rest)
  | '\\' :: letter :: cs => do
    let char ← escaped? letter
    let (chars, rest) ← readChars cs
    return (char :: chars, rest)
  | c :: cs => do
    if c = '\\' || c.toNat < 0x20 then
      none
    let (chars, rest) ← readChars cs
    return (c :: chars, rest)

/-- Read a string after its opening quote. -/
def readString (cs : List Char) : Option (String × List Char) := do
  let (chars, rest) ← readChars cs
  return (String.ofList chars, rest)

/-! ## Values -/

/-- Read items separated by commas up to a closing character. The count bounds the number of
items; the number of characters is always enough. -/
def readItems {α : Type} (item : List Char → Option (α × List Char)) (close : Char) :
    (count : Nat) → List Char → Option (List α × List Char)
  | 0, _ => none
  | count + 1, cs => do
    let (first, cs) ← item (skipBlanks cs)
    match skipBlanks cs with
    | ',' :: cs =>
      let (others, rest) ← readItems item close count cs
      return (first :: others, rest)
    | c :: cs => if c = close then some ([first], cs) else none
    | [] => none

/-- Read what stands between brackets: nothing, or items separated by commas. -/
def readBetween {α : Type} (item : List Char → Option (α × List Char)) (close : Char)
    (cs : List Char) : Option (List α × List Char) :=
  match skipBlanks cs with
  | [] => none
  | c :: rest => if c = close then some ([], rest) else readItems item close cs.length cs

/-- Read a name, a colon and a value. -/
def readField (value : List Char → Option (Json × List Char)) (cs : List Char) :
    Option ((String × Json) × List Char) :=
  match cs with
  | '"' :: cs => do
    let (name, cs) ← readString cs
    match skipBlanks cs with
    | ':' :: cs =>
      let (content, rest) ← value (skipBlanks cs)
      return ((name, content), rest)
    | _ => none
  | _ => none

/-- Read a value that is neither an array nor an object. -/
def readScalar : List Char → Option (Json × List Char)
  | '"' :: cs => (readString cs).map fun (value, rest) => (.string value, rest)
  | 'n' :: cs => (afterWord? ['u', 'l', 'l'] cs).map fun rest => (.null, rest)
  | 't' :: cs => (afterWord? ['r', 'u', 'e'] cs).map fun rest => (.bool true, rest)
  | 'f' :: cs => (afterWord? ['a', 'l', 's', 'e'] cs).map fun rest => (.bool false, rest)
  | '-' :: cs => readNumber true cs
  | cs => readNumber false cs

/-- Read a value that is nested at most `depth` deep. -/
def readValue : (depth : Nat) → List Char → Option (Json × List Char)
  | 0, cs =>
    match cs with
    | '[' :: _ | '\x7b' :: _ => none
    | _ => readScalar cs
  | depth + 1, cs =>
    match cs with
    | '[' :: cs =>
      (readBetween (readValue depth) ']' cs).map fun (items, rest) => (.array items, rest)
    | '\x7b' :: cs =>
      (readBetween (readField (readValue depth)) '\x7d' cs).map fun (fields, rest) =>
        (.object fields, rest)
    | _ => readScalar cs

/-- The deepest nesting that is read. -/
def maxDepth : Nat := 127

/-- Read a text that holds one value and blanks around it. -/
def parse? (text : String) : Option Json := do
  let (value, rest) ← readValue maxDepth (skipBlanks text.toList)
  if (skipBlanks rest).isEmpty then some value else none

end Accumulator.Json
