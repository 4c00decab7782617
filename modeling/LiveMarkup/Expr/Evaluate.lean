import LiveMarkup.Expr.Eval
import LiveMarkup.Expr.ItemNames
import LiveMarkup.Expr.Parser
import LiveMarkup.Text.Blank

/-!
# Evaluating expression texts

The text of an expression may be wrapped in one pair of braces and run over several lines.
`evaluate` takes such a text to its value and tells what is wrong with it; `valueOf` takes whatever
is wrong as `undefined`.
-/

namespace LiveMarkup

open Text

/-- The inside of a text that starts with an opening and ends with a closing brace. -/
def unwrapBraces (cs : List Char) : List Char :=
  match cs with
  | '\x7b' :: inner => if inner.getLast? = some '\x7d' then inner.dropLast else cs
  | cs => cs

/-- An expression text in one line, without blanks around it and without its braces. -/
def normalize (source : List Char) : List Char :=
  trim ((unwrapBraces (trim source)).map fun c => if c = '\n' || c = '\r' then ' ' else c)

/-- The value of an expression text; on request, accesses to fixed array items are named first. -/
def evaluate (namesItems : Bool) (scope : Scope) (source : List Char) :
    Except ExprError Value := do
  let source := normalize source
  let (named, bound) := nameItems scope source
  if namesItems && bound ≠ [] then
    let inner := bound.foldl (fun s (name, value) => s.set name value) scope.child
    (← parseExpr named).eval inner
  else (← parseExpr source).eval scope

/-- The value of an expression text, or `undefined` if it has none. -/
def valueOf (namesItems : Bool) (scope : Scope) (source : List Char) : Value :=
  match evaluate namesItems scope source with
  | .ok value => value
  | .error _ => .undefined

end LiveMarkup
