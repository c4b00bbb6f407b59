import Accumulator.Event
import Accumulator.Json.Reader
import Accumulator.Overflow

/-!
# Events as JSON

An event is an object whose field `event` names it. Its other fields may come in any order and
are given once; fields that the event does not have are ignored. Files of events may use two
more forms: an event as an array of its name and its values in order, and
the name of a width or an operator as an object with that name as its one, empty field.
-/

namespace Accumulator

/-- A literal: a whole number of the signed 32-bit range. -/
def Json.literal? (json : Json) : Option Int :=
  json.int?.filter fun value => InInt32 value

/-- An initial value: an object with one field, which says what it is. -/
def InitialValue.ofJson? : Json → Option InitialValue
  | .object [("scalar", value)] => value.literal?.map .scalar
  | .object [("array", .array items)] => (items.mapM Json.literal?).map .array
  | .object [("string", .string chars)] => some (.text chars)
  | _ => none

/-- A name in a file: a string, or an object with one field that holds nothing. -/
def Json.name? : Json → Option String
  | .string name | .object [(name, .null)] | .object [(name, .object [])] => some name
  | _ => none

namespace Event

/-- The event with a name and fields, given how the names of widths and operators are read. -/
def ofFields? (name? : Json → Option String) (event : String) (fields : List (String × Json)) :
    Option Event :=
  let string? (field : String) : Option String := (Json.field? fields field).bind Json.string?
  match event with
  | "declare" => do
    return .declare (← string? "name")
      (← (← name? (← Json.field? fields "width")) |> Width.ofName?)
  | "reference" => (string? "name").map .reference
  | "literal" => ((Json.field? fields "value").bind Json.literal?).map .literal
  | "initialize" => do
    return .initial (← string? "name")
      (← (← Json.field? fields "value") |> InitialValue.ofJson?)
  | "operator" => (((Json.field? fields "op").bind name?).bind ExprOp.ofName?).map .operator
  | "assign" =>
    match Json.valuesOf fields "pointer_target" with
    | [] => some (.assign false)
    | [.bool throughPointer] => some (.assign throughPointer)
    | _ => none
  | "index" => some .index
  | "set_dimension" => (string? "name").map .setDimension
  | "address_of" => some .addressOf
  | "dereference" => some .dereference
  | _ => none

/-- The fields of an event in order. -/
def fieldNames : String → List String
  | "declare" => ["name", "width"]
  | "reference" | "set_dimension" => ["name"]
  | "literal" => ["value"]
  | "initialize" => ["name", "value"]
  | "operator" => ["op"]
  | "assign" => ["pointer_target"]
  | _ => []

/-- The event that a JSON object describes. -/
def ofObject? (name? : Json → Option String) (fields : List (String × Json)) : Option Event := do
  let event ← (← Json.field? fields "event").string?
  ofFields? name? event fields

/-- The event that a JSON value describes. -/
def ofJson? (json : Json) : Option Event := do
  ofObject? Json.string? (← json.object?)

/-- The event that an item of a file describes. An array has no more values than the event has
fields. -/
def ofItem? : Json → Option Event
  | .object fields => ofObject? Json.name? fields
  | .array (.string event :: values) =>
    if values.length ≤ (fieldNames event).length then
      ofFields? Json.name? event ((fieldNames event).zip values)
    else
      none
  | _ => none

/-- The events that a text describes: an array of them. -/
def parseAll? (text : String) : Option (List Event) := do
  (← (← Json.parse? text).array?).mapM ofItem?

end Event

end Accumulator
