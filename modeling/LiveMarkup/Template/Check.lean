import LiveMarkup.Expr.Parser
import LiveMarkup.Interpolation
import LiveMarkup.Template.Basic
import LiveMarkup.Template.Warning
import LiveMarkup.Text.Blank

/-!
# Checking the expressions of a template

Every expression of a compiled template is read once, in the order of the template, and those that
cannot be read are reported with the place where they stand.
-/

namespace LiveMarkup

open Text

/-- The warning about an expression, if it cannot be read. -/
def checkExpression (location : String) (expression : List Char) : List Warning :=
  match parseExpr (trim expression) with
  | .ok _ => []
  | .error e => [.invalidExpression (String.ofList expression) location e]

/-- Whether a character can continue the name of a binding. -/
def isBindingRest (c : Char) : Bool :=
  isWord c || c = '-'

/-- The name and the value of a binding attribute at the start of a text, and the text after it. -/
def scanBinding? (cs : List Char) : Option (List Char × List Char × List Char) :=
  match after? "pado-".toList cs with
  | some (c :: r) =>
    if c.isAlpha then
      match after? ['=', '"'] (r.dropWhile isBindingRest) with
      | some v =>
        match v.dropWhile (· ≠ '"') with
        | _ :: rest => some (c :: r.takeWhile isBindingRest, v.takeWhile (· ≠ '"'), rest)
        | [] => none
      | none => none
    else none
  | _ => none

/-- The names and values of the binding attributes in markup, after a given character.  Each round
passes over an attribute or a character. -/
def bindingsFrom : Nat → Option Char → List Char → List (List Char × List Char)
  | 0, _, _ => []
  | _ + 1, _, [] => []
  | fuel + 1, previous, c :: cs =>
    match if previous.any isWord then none else scanBinding? (c :: cs) with
    | some (name, value, rest) => (name, value) :: bindingsFrom fuel (some '"') rest
    | none => bindingsFrom fuel (some c) cs

/-- The names and values of the binding attributes in markup. -/
def bindings (markup : List Char) : List (List Char × List Char) :=
  bindingsFrom markup.length none markup

/-- The value of a binding with the references for quotes and ampersands decoded. -/
def bindingValue (raw : List Char) : List Char :=
  replaceAll "&amp;".toList ['&'] (replaceAll "&quot;".toList ['"'] raw)

/-- The text of a text binding with its other references decoded too. -/
def bindingText (value : List Char) : List Char :=
  replaceAll "&#39;".toList ['\'']
    (replaceAll "&gt;".toList ['>'] (replaceAll "&lt;".toList ['<'] value))

/-- The warnings about one binding. -/
def checkBinding (location : String) (name raw : List Char) : List Warning :=
  let value := bindingValue raw
  let location := location ++ " (pado-" ++ String.ofList name ++ ")"
  if name = "init".toList then []
  else if name = "text".toList then
    (Interpolation.expressions (bindingText value)).flatMap (checkExpression location)
  else checkExpression location value

/-- The warnings about the bindings in markup. -/
def checkMarkup (location markup : String) : List Warning :=
  (bindings markup.toList).flatMap fun (name, raw) => checkBinding location name raw

/-- The warnings about a group of conditions. -/
def ConditionGroup.check (g : ConditionGroup) : List Warning :=
  g.blocks.flatMap fun b =>
    (b.condition.toList.flatMap fun c => checkExpression ("condition " ++ g.name) c.toList) ++
      checkMarkup g.name b.content

/-- The warnings about a loop. -/
def LoopDefinition.check (l : LoopDefinition) : List Warning :=
  checkExpression ("loop " ++ l.name) l.array.toList ++ checkMarkup l.name l.content

/-- The warnings about a template. -/
def Template.check (t : Template) : List Warning :=
  checkMarkup "template" t.html ++ t.conditions.flatMap ConditionGroup.check ++
    t.loops.flatMap LoopDefinition.check

end LiveMarkup
