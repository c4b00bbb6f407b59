/-!
# JSON values

Events come as JSON. Only whole numbers mean anything to them, so of a number with a fraction or
an exponent no more is kept than that it was there.
-/

namespace Accumulator

/-- A JSON value. An object keeps its fields in order, a name that occurs twice included. -/
inductive Json where
  | null
  | bool (value : Bool)
  | int (value : Int)
  /-- A number with a fraction or an exponent, or minus zero. -/
  | decimal
  | string (value : String)
  | array (items : List Json)
  | object (fields : List (String × Json))

namespace Json

/-- The value of a truth value. -/
def bool? : Json → Option Bool
  | bool value => some value
  | _ => none

/-- The value of a whole number. -/
def int? : Json → Option Int
  | int value => some value
  | _ => none

/-- The value of a string. -/
def string? : Json → Option String
  | string value => some value
  | _ => none

/-- The items of an array. -/
def array? : Json → Option (List Json)
  | array items => some items
  | _ => none

/-- The fields of an object. -/
def object? : Json → Option (List (String × Json))
  | object fields => some fields
  | _ => none

/-- The values that fields give a name. -/
def valuesOf (fields : List (String × Json)) (name : String) : List Json :=
  (fields.filter (·.1 = name)).map (·.2)

/-- The value of a field that must be given exactly once. -/
def field? (fields : List (String × Json)) (name : String) : Option Json :=
  match valuesOf fields name with
  | [value] => some value
  | _ => none

end Json

end Accumulator
