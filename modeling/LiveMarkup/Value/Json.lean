import LiveMarkup.Json.Printer
import LiveMarkup.Value.Basic

/-!
# Values and JSON

Every JSON value is a value.  Written as JSON, whole numbers below `9 · 10 ^ 15` are integers, and
what JSON cannot hold becomes `null`.
-/

namespace LiveMarkup.Value

mutual

/-- The value of a JSON value. -/
def ofJson : Json → Value
  | .null => null
  | .bool b => boolean b
  | .number n => number n.toFloat
  | .string s => string s
  | .array items => array (ofJsonItems items)
  | .object members => object (ofJsonMembers members)

/-- The values of the items of an array. -/
def ofJsonItems : List Json → List Value
  | [] => []
  | item :: items => ofJson item :: ofJsonItems items

/-- The values of the members of an object. -/
def ofJsonMembers : List (String × Json) → List (String × Value)
  | [] => []
  | (key, value) :: members => (key, ofJson value) :: ofJsonMembers members

end

mutual

/-- A value as JSON. -/
def toJson : Value → Json
  | undefined | null => .null
  | boolean b => .bool b
  | number x =>
    if Decimal.isWhole x && x.abs < 9.0e15 then .number (.integer (Decimal.toInt x))
    else .number (.float x)
  | string s => .string s
  | array items => .array (toJsonItems items)
  | object fields => .object (toJsonFields fields)

/-- The items of an array as JSON. -/
def toJsonItems : List Value → List Json
  | [] => []
  | item :: items => toJson item :: toJsonItems items

/-- The fields of an object as JSON. -/
def toJsonFields : List (String × Value) → List (String × Json)
  | [] => []
  | (key, value) :: fields => (key, toJson value) :: toJsonFields fields

end

end LiveMarkup.Value
