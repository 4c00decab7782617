import LiveMarkup.Decimal.Layout
import LiveMarkup.Template.Marker
import LiveMarkup.Text.Crc32
import LiveMarkup.Text.Hex

/-!
# Names of groups and loops

The groups of conditions and the loops of a template are numbered in the order in which they open.
Their names begin with a seed that depends on the path of the template alone, so compiling the same
template again gives the same names.
-/

namespace LiveMarkup

open Text

/-- The identifier of the document at a path: the check of its location in hexadecimal. -/
def documentId (path : List Char) : List Char :=
  let location := if startsWith "file://".toList path then path else "file://".toList ++ path
  let check := crc32 (String.ofList location).toUTF8.toList
  Nat.toDigits 16 check.toNat

/-- The seed of the names, and how many groups and loops have been named.  Any number can be counted:
counters of 32 bits give the same names to the first 2^32 groups and loops, and would then begin anew. -/
structure Names where
  seed : String
  conditions : Nat := 0
  loops : Nat := 0
  deriving DecidableEq, Inhabited

namespace Names

/-- The seed for templates without a path. -/
def anonymous : String := "page"

/-- The names of a template with or without a path. -/
def ofPath (path : Option String) : Names :=
  match path with
  | some p => { seed := String.ofList (documentId p.toList) }
  | none => { seed := anonymous }

/-- The name with a given number. -/
def nameOf (seed : String) (kind : DirectiveKind) (n : Nat) : String :=
  seed ++ "_" ++ kind.keyword ++ "_" ++ String.ofList (Decimal.numeral n)

/-- The next name for a kind of directives. -/
def next (names : Names) (kind : DirectiveKind) : String × Names :=
  match kind with
  | .condition =>
    (nameOf names.seed kind names.conditions, { names with conditions := names.conditions + 1 })
  | .loop => (nameOf names.seed kind names.loops, { names with loops := names.loops + 1 })

end Names

end LiveMarkup
