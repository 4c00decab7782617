import LiveMarkup.Decimal.Layout
import LiveMarkup.Decimal.Reader
import LiveMarkup.Text.Blank

/-!
# Values

What expressions compute with.  `undefined` is the value of everything that is missing or failed.
The fields of an object are listed by key.  Every value has a text, by which it is shown and joined
to strings, and a number, by which it is counted with.
-/

namespace LiveMarkup

/-- A value of an expression. -/
inductive Value where
  | undefined
  | null
  | boolean (b : Bool)
  | number (x : Float)
  | string (s : String)
  | array (items : List Value)
  | object (fields : List (String × Value))
  deriving Inhabited

namespace Value

/-- Whether a value is `null` or `undefined`. -/
def isNullish : Value → Bool
  | undefined | null => true
  | _ => false

/-- Whether a value is `undefined`. -/
def isUndefined : Value → Bool
  | undefined => true
  | _ => false

/-- The items of an array. -/
def items? : Value → Option (List Value)
  | array items => some items
  | _ => none

/-- Whether a value counts as true: zero, the empty string and what is no number or no value do
not. -/
def isTruthy : Value → Bool
  | undefined | null => false
  | boolean b => b
  | number x => x != 0 && !x.isNaN
  | string s => s ≠ ""
  | array _ | object _ => true

/-- The name of a value's type. -/
def typeName : Value → String
  | undefined => "undefined"
  | null => "null"
  | boolean _ => "boolean"
  | number _ => "number"
  | string _ => "string"
  | array _ => "array"
  | object _ => "object"

/-- The integers that a machine word of 64 bits holds; others become the nearest of them. -/
def clampToWord (n : Int) : Int :=
  max (-Int.pow 2 63) (min (Int.pow 2 63 - 1) n)

/-- The text of a number.  A whole number below `10 ^ 21` is written as the nearest integer of 64
bits; zero has no sign. -/
def numberText (x : Float) : List Char :=
  if x.isNaN then "NaN".toList
  else if x.isInf then if Decimal.isNegative x then "-Infinity".toList else "Infinity".toList
  else if x == 0 then ['0']
  else if Decimal.isWhole x && x.abs < 1e21 then Decimal.intNumeral (clampToWord (Decimal.toInt x))
  else Decimal.plain.write x

/-- The text of a value that is no array. -/
def plainText : Value → String
  | undefined => "undefined"
  | null => "null"
  | boolean b => if b then "true" else "false"
  | number x => String.ofList (numberText x)
  | string s => s
  | array _ => ""
  | object _ => "[object Object]"

mutual

/-- The text of a value. -/
def chars : Value → List Char
  | array items => itemChars items
  | v => v.plainText.toList

/-- The texts of the items of an array between commas; nothing stands for a missing item. -/
def itemChars : List Value → List Char
  | [] => []
  | [item] => if item.isNullish then [] else chars item
  | item :: items => (if item.isNullish then [] else chars item) ++ ',' :: itemChars items

end

/-- The text of a value. -/
def text (v : Value) : String :=
  String.ofList v.chars

/-- The number that a text is read as: nothing counts as zero, and what is no number as none. -/
def textNumber (cs : List Char) : Float :=
  match Text.trim cs with
  | [] => 0
  | cs => (Decimal.read? cs).getD Decimal.nan

/-- The number that a value is counted as. -/
def toNumber : Value → Float
  | undefined => Decimal.nan
  | null => 0
  | boolean b => if b then 1 else 0
  | number x => x
  | string s => textNumber s.toList
  | array [] => 0
  | array [item] => textNumber item.chars
  | array _ => Decimal.nan
  | object _ => Decimal.nan

mutual

/-- Whether two values have the same type and the same content. -/
def same : Value → Value → Bool
  | undefined, undefined => true
  | null, null => true
  | boolean a, boolean b => a = b
  | number x, number y => x == y
  | string s, string t => s = t
  | array xs, array ys => sameItems xs ys
  | object fs, object gs => sameFields fs gs
  | _, _ => false

/-- Whether two lists of values are the same, item by item. -/
def sameItems : List Value → List Value → Bool
  | [], [] => true
  | x :: xs, y :: ys => same x y && sameItems xs ys
  | _, _ => false

/-- Whether two lists of fields are the same, field by field. -/
def sameFields : List (String × Value) → List (String × Value) → Bool
  | [], [] => true
  | (k, x) :: fs, (l, y) :: gs => k = l && same x y && sameFields fs gs
  | _, _ => false

end

/-- The field of an object, by its name. -/
def member? : Value → String → Option Value
  | object fields, name => fields.lookup name
  | _, _ => none

/-- The position that a number names: a whole number that is not negative. -/
def position? (x : Float) : Option Nat :=
  if 0 ≤ x && Decimal.isWhole x then some (Decimal.toInt x).toNat else none

/-- The position that a text names: decimal digits with or without a plus sign, below `2 ^ 64`. -/
def readPosition? (cs : List Char) : Option Nat :=
  let ds := match cs with
    | '+' :: r => r
    | _ => cs
  if ds ≠ [] && ds.all Char.isDigit && Decimal.digitsValue ds < Nat.pow 2 64 then
    some (Decimal.digitsValue ds)
  else none

/-- The item of an array or the field of an object, by its key. -/
def item? : Value → Value → Option Value
  | array items, number x => (position? x).bind fun i => items[i]?
  | array items, string s => (readPosition? s.toList).bind fun i => items[i]?
  | object fields, key => fields.lookup key.text
  | _, _ => none

end Value

end LiveMarkup
