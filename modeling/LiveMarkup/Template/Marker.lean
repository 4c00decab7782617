import LiveMarkup.Text.Blank
import LiveMarkup.Text.Scan

/-!
# Markers

Where a directive stood in a template a comment is left that names what belongs there: a group of
conditions or a loop.
-/

namespace LiveMarkup

open Text

/-- The directives that have a body. -/
inductive DirectiveKind where
  | condition
  | loop
  deriving DecidableEq, Inhabited

/-- The word that stands for a kind of directives in a template and in its markers. -/
def DirectiveKind.keyword : DirectiveKind → String
  | .condition => "if"
  | .loop => "loop"

/-- What a marker comment says. -/
structure Marker where
  kind : DirectiveKind
  name : String
  deriving DecidableEq, Inhabited

namespace Marker

/-- The text of a marker. -/
def text (m : Marker) : String :=
  m.kind.keyword ++ ":" ++ m.name

/-- The marker of a kind that a text spells; its name is not empty. -/
def ofText? (kind : DirectiveKind) (cs : List Char) : Option Marker :=
  match after? (kind.keyword.toList ++ [':']) cs with
  | some (c :: name) => some ⟨kind, String.ofList (c :: name)⟩
  | _ => none

/-- The marker that the text of a comment spells, blanks around it aside. -/
def ofComment? (comment : String) : Option Marker :=
  let cs := trim comment.toList
  (ofText? .condition cs).or (ofText? .loop cs)

/-- A marker as markup. -/
def markup (m : Marker) : List Char :=
  "<!-- ".toList ++ m.text.toList ++ " -->".toList

-- to derive this equation by unfolding takes seconds
theorem markup_def (m : Marker) : m.markup = "<!-- ".toList ++ m.text.toList ++ " -->".toList := rfl

end Marker

end LiveMarkup
