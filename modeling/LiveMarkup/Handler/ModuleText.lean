import LiveMarkup.Text.Blank
import LiveMarkup.Text.Scan
import LiveMarkup.Text.Word

/-!
# The names that a module exports

A module is a text of a script, which is not run.  Its exported names are found by their form: first
those of exported declarations, as in `export async function save`, then those of export lists, as
in `export { load as reload }`.
-/

namespace LiveMarkup

open Text

/-- The words that declare a name; only a function may carry a star. -/
def declarationWords : List String := ["function", "const", "let", "var"]

/-- The text after a word and one blank at least. -/
def afterWord? (word : String) (cs : List Char) : Option (List Char) :=
  (after? word.toList cs).bind fun rest =>
    if rest.head?.any isBlank then some (rest.dropWhile isBlank) else none

/-- The text after the star of a declaration of a function, if there is one. -/
def dropStar (word : String) (cs : List Char) : List Char :=
  match cs.dropWhile isBlank with
  | '*' :: rest => if word = "function" then rest else '*' :: rest
  | rest => rest

/-- The name of an exported declaration at the start of a text, and the text after it. -/
def exportedDeclaration? (cs : List Char) : Option (List Char × List Char) := do
  let rest ← afterWord? "export" cs
  let rest := (afterWord? "async" rest).getD rest
  let (word, rest) ← declarationWords.findSome? fun word => (after? word.toList rest).map (word, ·)
  let rest := (dropStar word rest).dropWhile isBlank
  if rest.head?.any isIdentStart then
    some (rest.takeWhile isIdentRest, rest.dropWhile isIdentRest)
  else none

/-- The inside of an export list at the start of a text, and the text after it. -/
def exportList? (cs : List Char) : Option (List Char × List Char) := do
  match (← after? "export".toList cs).dropWhile isBlank with
  | '\x7b' :: rest => cut? ['\x7d'] rest
  | _ => none

/-- What a scanner finds in a text where no word goes on, from left to right and without overlaps.
Each round passes over a character or a find. -/
def findAllFrom {α : Type} (scan : List Char → Option (α × List Char)) :
    Nat → Option Char → List Char → List α
  | 0, _, _ => []
  | _ + 1, _, [] => []
  | fuel + 1, previous, c :: cs =>
    match if previous.any isWord then none else scan (c :: cs) with
    | some (x, rest) =>
      x :: findAllFrom scan fuel (((c :: cs).take ((c :: cs).length - rest.length)).getLast?) rest
    | none => findAllFrom scan fuel (some c) cs

/-- What a scanner finds in a text where no word goes on. -/
def findAll {α : Type} (scan : List Char → Option (α × List Char)) (cs : List Char) : List α :=
  findAllFrom scan cs.length none cs

/-- The text after the last occurrence of a mark, or the whole text. -/
def afterLast (mark : List Char) : (fuel : Nat) → List Char → List Char
  | 0, cs => cs
  | fuel + 1, cs =>
    match cut? mark cs with
    | some (_, rest) => afterLast mark fuel rest
    | none => cs

/-- The names that an export list gives: of each entry the last name, after ` as `. -/
def listedNames (inside : List Char) : List (List Char) :=
  (splitAt ',' inside).map fun entry => trim (afterLast " as ".toList entry.length entry)

/-- The names that the text of a module exports, each once. -/
def exportedNames (source : List Char) : List String :=
  let names := findAll exportedDeclaration? source ++
    (findAll exportList? source).flatMap listedNames
  distinct ((names.filter (· ≠ [])).map String.ofList)

end LiveMarkup
