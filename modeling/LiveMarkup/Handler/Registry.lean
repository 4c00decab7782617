import LiveMarkup.Expr.Evaluate
import LiveMarkup.Handler.Call

/-!
# Handlers by name

A module exports functions and values.  The exports of all modules of a page are kept by name, and a
later one takes the place of an earlier one with its name (`lookup_install`).  A call is dispatched
to the function with its name; the arguments are evaluated in the state of the page.
-/

namespace LiveMarkup

/-- What a module exports under a name. -/
inductive Export where
  | function (f : List Value → Value)
  | value (v : Value)

/-- Exports by name, each name once and in order. -/
abbrev Exports := List (String × Export)

/-- Why an event could not be dispatched. -/
inductive DispatchError where
  | noHandler (event : String)
  | malformedCall (call : String)
  | unknownHandler (name : String)
  deriving DecidableEq

/-- An error in words. -/
def DispatchError.message : DispatchError → String
  | noHandler event => s!"Element has no on{event} handler"
  | malformedCall call => s!"Malformed handler call: {call}"
  | unknownHandler name => s!"Unknown handler: {name}"

namespace Exports

/-- Exports with those of a module added. -/
def install (exports module : Exports) : Exports :=
  module.foldl (fun acc (name, e) => insertByKey name e acc) exports

/-- The exports in a list, of which the last for a name counts. -/
def ofList (es : List (String × Export)) : Exports :=
  install [] es

/-- The result of the function with a name. -/
def call (exports : Exports) (name : String) (arguments : List Value) :
    Except DispatchError Value :=
  match exports.lookup name with
  | some (.function f) => .ok (f arguments)
  | _ => .error (.unknownHandler name)

/-- The result of a call, with the arguments evaluated in a scope. -/
def dispatch (exports : Exports) (namesItems : Bool) (scope : Scope) (call : String) :
    Except DispatchError Value :=
  match Call.parse? call.toList with
  | none => .error (.malformedCall call)
  | some c =>
    exports.call c.name (c.arguments.map fun a => valueOf namesItems scope a.toList)

end Exports

end LiveMarkup
