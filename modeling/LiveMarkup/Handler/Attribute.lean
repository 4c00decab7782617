import LiveMarkup.Document.Query
import LiveMarkup.Template.Tag

/-!
# Event attributes

In a template the attribute of an event may hold a group of braces with a call or the bare name of a
handler.  Before it can be dispatched it is completed to a call (`completeCall`).
-/

namespace LiveMarkup

open Text

/-- Whether an attribute belongs to an event. -/
def isEventAttribute (name : String) : Bool :=
  2 < byteLength name.toList && startsWith "on".toList name.toList

/-- The call that the value of an event attribute stands for, if it is one group of braces. -/
def completeCall (value : List Char) : Option (List Char) :=
  (singleExpression? value).map fun inner =>
    let inner := trim inner
    if '(' ∈ inner then inner else inner ++ ['(', ')']

/-- The event attributes of an element that stand for calls, with these calls. -/
def Element.handlerCalls (e : Element) : List (String × String) :=
  e.attributes.filterMap fun (name, value) =>
    if isEventAttribute name then (completeCall value.toList).map fun call =>
      (name, String.ofList call)
    else none

/-- An element with its event attributes completed. -/
def Element.completeHandlers (e : Element) : Element :=
  e.handlerCalls.foldl (fun e (name, call) => e.setAttribute name call) e

namespace Document

/-- A document with the event attributes below a node completed. -/
def completeHandlers (d : Document) (id : NodeId) : Document :=
  (d.elements id).foldl (fun d n => d.updateElement n Element.completeHandlers) d

/-- How many event attributes below a node stand for calls. -/
def handlerCount (d : Document) (id : NodeId) : Nat :=
  ((d.elements id).flatMap fun n => ((d.element? n).map Element.handlerCalls).getD []).length

end Document

end LiveMarkup
