import LiveMarkup.Decimal.Layout
import LiveMarkup.Handler.Attribute
import LiveMarkup.Interpolation
import LiveMarkup.Template.Basic

/-!
# Placing the content of a loop

The content of a loop is shown for each item of an array.  Where it is placed, the name of the item
is replaced by an access such as `items[2]`, and `index` by the position, so that the placed content
depends on the state of the page alone.
-/

namespace LiveMarkup

open Text

/-- An item of an array at which the content of a loop is placed. -/
structure Placement where
  item : List Char
  /-- The expression that reads the item from outside the loop. -/
  access : List Char
  /-- The position of the item, unless an inner loop counts its own. -/
  position : Option Nat
  /-- The name of the loop with the position. -/
  place : String
  deriving DecidableEq

/-- The name under which the content of a loop sees the position of its item. -/
def indexName : String := "index"

/-- Whether a character stands in plain paths such as `a.b[0]`. -/
def isPathChar (c : Char) : Bool :=
  isIdentRest c || c = '.' || c = '[' || c = ']'

/-- A position in brackets. -/
def bracketed (i : Nat) : List Char :=
  '[' :: Decimal.numeral i ++ [']']

/-- The access to an item of an array; anything but a plain path goes into parentheses. -/
def itemAccess (array : List Char) (i : Nat) : List Char :=
  let array := trim array
  (if array.all isPathChar then array else '(' :: array ++ [')']) ++ bracketed i

namespace Placement

/-- The placement of a loop at the item with a given position. -/
def ofLoop (l : LoopDefinition) (i : Nat) : Placement where
  item := l.item.toList
  access := itemAccess l.array.toList i
  position := some i
  place := l.name ++ String.ofList (bracketed i)

/-- The name of a group or loop at a placement. -/
def nameAt (p : Placement) (name : String) : String :=
  name ++ "@" ++ p.place

/-- A text after a way of replacing names was used for the names that a placement gives. -/
def replaceNames (p : Placement) (replace : (name new source : List Char) → List Char)
    (source : List Char) : List Char :=
  let source := replace p.item p.access source
  match p.position with
  | some i =>
    if p.item = indexName.toList then source
    else replace indexName.toList (Decimal.numeral i) source
  | none => source

/-- An expression at a placement. -/
def expression (p : Placement) (source : String) : String :=
  String.ofList (p.replaceNames substitute source.toList)

/-- A text with expressions at a placement. -/
def text (p : Placement) (source : String) : String :=
  String.ofList (p.replaceNames Interpolation.substitute source.toList)

/-- The placement for the content of a loop inside the content, or `none` if that loop gives the
same name to its own items. -/
def inside? (p : Placement) (l : LoopDefinition) : Option Placement :=
  if p.item = l.item.toList then none else some { p with position := none }

/-- The value of an attribute at a placement.  Texts and handlers hold expressions in braces, and
other bindings are expressions. -/
def attributeValue (p : Placement) (name value : String) : String :=
  if name.toList = textBinding || isEventAttribute name then p.text value
  else if startsWith bindingStart name.toList && name ≠ "pado-init" then p.expression value
  else value

end Placement

end LiveMarkup
