import LiveMarkup.Document.Graft
import LiveMarkup.Document.Query
import LiveMarkup.Expr.Evaluate
import LiveMarkup.Page.Update
import LiveMarkup.Template.Tag

/-!
# Showing bindings

An element with a text binding shows its text with the values of the expressions in it.  Any other
binding attribute sets the attribute or property that it is named for, unless its value is
`undefined`.
-/

namespace LiveMarkup

open Text

/-- The value of an expression as it is shown; nothing stands for `undefined`. -/
def shownValue (namesItems : Bool) (scope : Scope) (source : List Char) : List Char :=
  match valueOf namesItems scope source with
  | .undefined => []
  | v => v.chars

/-- Whether a text has an expression that an update concerns. -/
def Update.meetsText (u : Update) (text : List Char) : Bool :=
  (Interpolation.expressions text).any fun e => u.meets (expressionVars e)

/-- The names of binding attributes that are no attributes to be set. -/
def unboundTargets : List String := ["", "text", "init", "if", "elseif", "else"]

/-- The attribute that a binding attribute sets. -/
def bindingTarget? (name : String) : Option String :=
  match after? bindingStart name.toList with
  | none => none
  | some target =>
    let target := String.ofList target
    if target ∈ unboundTargets then none else some target

/-- The attributes that are there or not, whatever their value. -/
def flagAttributes : List String := ["checked", "disabled", "readonly"]

/-- An element with the value of a binding applied to it. -/
def Element.applyBinding (e : Element) (target : String) (v : Value) : Element :=
  if target ∈ flagAttributes then
    let shown := if v.isTruthy then e.setAttribute target "" else e.removeAttribute target
    if e.kind.hasFlag target then shown.setFlag target v.isTruthy else shown
  else if target = "value" && e.kind.hasValue then e.setValue v.text
  else e.setAttribute target v.text

/-- The bindings of an element that an update concerns and that have a value. -/
def Element.boundValues (namesItems : Bool) (scope : Scope) (u : Update) (e : Element) :
    List (String × Value) :=
  e.attributes.filterMap fun (name, source) =>
    match bindingTarget? name with
    | none => none
    | some target =>
      if u.meets (expressionVars source.toList) then
        match valueOf namesItems scope source.toList with
        | .undefined => none
        | v => some (target, v)
      else none

namespace Document

/-- A document with the text of an element shown, and whether there was anything to show. -/
def showText (namesItems : Bool) (scope : Scope) (u : Update) (d : Document) (id : NodeId) :
    Bool × Document :=
  match d.attribute? id (String.ofList textBinding) with
  | none => (false, d)
  | some text =>
    if u.meetsText text.toList then
      (true, d.setInnerHtml id (Interpolation.render (shownValue namesItems scope) text.toList))
    else (false, d)

/-- A document with the texts below a node shown, and how many they are. -/
def showTexts (namesItems : Bool) (scope : Scope) (u : Update) (d : Document) (under : NodeId) :
    Nat × Document :=
  (d.elements under).foldl (fun (n, d) id =>
    let (shown, d) := d.showText namesItems scope u id
    (if shown then n + 1 else n, d)) (0, d)

/-- A document with the attributes of an element shown, and how many they are. -/
def showAttributesOf (namesItems : Bool) (scope : Scope) (u : Update) (d : Document)
    (id : NodeId) : Nat × Document :=
  match d.element? id with
  | none => (0, d)
  | some e =>
    let values := e.boundValues namesItems scope u
    (values.length, d.updateElement id fun e =>
      values.foldl (fun e (target, v) => e.applyBinding target v) e)

/-- A document with the attributes below a node shown, and how many they are. -/
def showAttributes (namesItems : Bool) (scope : Scope) (u : Update) (d : Document)
    (under : NodeId) : Nat × Document :=
  (d.elements under).foldl (fun (n, d) id =>
    let (m, d) := d.showAttributesOf namesItems scope u id
    (n + m, d)) (0, d)

end Document

end LiveMarkup
