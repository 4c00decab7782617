import LiveMarkup.Keyed
import LiveMarkup.Value.Basic

/-!
# Scopes

The names that an expression sees, in frames from the innermost to the outermost.  A name means
what the innermost frame that binds it says.
-/

namespace LiveMarkup

/-- The bindings of one frame, by name. -/
abbrev Bindings := List (String × Value)

/-- The bindings after one more; the name may be bound already. -/
def Bindings.set (bs : Bindings) (name : String) (value : Value) : Bindings :=
  insertByKey name value bs

/-- The bindings after several more, of which the last for a name counts. -/
def Bindings.merge (bs : Bindings) (more : List (String × Value)) : Bindings :=
  more.foldl (fun acc (name, value) => acc.set name value) bs

/-- Frames of bindings, the innermost first. -/
structure Scope where
  inner : Bindings := []
  outer : List Bindings := []
  deriving Inhabited

namespace Scope

/-- The scope with one frame. -/
def ofBindings (bs : List (String × Value)) : Scope :=
  ⟨Bindings.merge [] bs, []⟩

/-- A scope with an empty frame inside a given one. -/
def child (s : Scope) : Scope :=
  ⟨[], s.inner :: s.outer⟩

/-- A scope with a name bound in its innermost frame. -/
def set (s : Scope) (name : String) (value : Value) : Scope :=
  { s with inner := s.inner.set name value }

/-- What a name means. -/
def find? (s : Scope) (name : String) : Option Value :=
  (s.inner :: s.outer).findSome? fun frame => frame.lookup name

/-- Whether a name means anything. -/
def contains (s : Scope) (name : String) : Bool :=
  (s.find? name).isSome

/-- The names that the innermost frame binds, in their order. -/
def localNames (s : Scope) : List String :=
  s.inner.map (·.1)

end Scope

end LiveMarkup
