import LiveMarkup.Markup.Event

/-!
# From pieces to trees

The pieces of a markup text are put together with the elements that are open.  An end tag closes the
innermost open element with its name, and the elements inside that one; if there is none it is
passed over.  At the end all elements are closed.
-/

namespace LiveMarkup

/-- An element that is open, with the nodes inside it so far, the last one first. -/
structure Pending where
  element : Element
  inside : List Tree := []

/-- The nodes so far, the last one first, and the open elements, the innermost one first. -/
structure Builder where
  top : List Tree := []
  pending : List Pending := []

namespace Builder

/-- One node more, inside the innermost open element. -/
def add (b : Builder) (t : Tree) : Builder :=
  match b.pending with
  | [] => { b with top := t :: b.top }
  | p :: ps => { b with pending := { p with inside := t :: p.inside } :: ps }

/-- The innermost open element closed. -/
def close (b : Builder) : Builder :=
  match b.pending with
  | [] => b
  | p :: ps => { b with pending := ps }.add (.node (.element p.element) p.inside.reverse)

/-- A number of open elements closed, from the innermost outward. -/
def closeMany : Nat → Builder → Builder
  | 0, b => b
  | n + 1, b => closeMany n b.close

/-- One piece more. -/
def step (b : Builder) : Event → Builder
  | .whole t => b.add t
  | .start e => { b with pending := { element := e } :: b.pending }
  | .stop tag =>
    match b.pending.findIdx? fun p => p.element.tag = tag with
    | some i => b.closeMany (i + 1)
    | none => b

/-- The nodes, with all elements closed. -/
def finish (b : Builder) : List Tree :=
  (b.closeMany b.pending.length).top.reverse

end Builder

/-- The trees that pieces of markup make up. -/
def Tree.ofEvents (es : List Event) : List Tree :=
  (es.foldl Builder.step {}).finish

/-- The trees of a markup text. -/
def Tree.parse (cs : List Char) : List Tree :=
  Tree.ofEvents (events cs)

end LiveMarkup
