import LiveMarkup.Text.Blank
import LiveMarkup.Text.Word

/-!
# Handler calls

The attribute of an event holds a call, as in `remove(items[2].id, 'x')`.  A call is cut into the
name of a handler and the texts of the arguments, which are separated by the commas outside strings
and brackets (`Call.parse?`).
-/

namespace LiveMarkup

open Text

/-- A call of a handler. -/
structure Call where
  name : String
  arguments : List String
  deriving DecidableEq

/-- Whether a character opens a bracket of any kind. -/
def isOpening (c : Char) : Bool :=
  c = '(' || c = '[' || c = '\x7b'

/-- Whether a character closes a bracket of any kind. -/
def isClosing (c : Char) : Bool :=
  c = ')' || c = ']' || c = '\x7d'

/-- A text in front of the first one of a list. -/
def prependToFirst (start : List Char) : List (List Char) → List (List Char)
  | [] => [start]
  | piece :: pieces => (start ++ piece) :: pieces

/-- The pieces of a text between the commas outside strings and brackets.  Brackets are counted
whatever their kind, and one too many is passed over. -/
def cutAtCommas : (quote : Option Char) → (depth : Nat) → List Char → List (List Char)
  | _, _, [] => [[]]
  | some q, depth, '\\' :: c :: cs => prependToFirst ['\\', c] (cutAtCommas (some q) depth cs)
  | some q, depth, c :: cs =>
    prependToFirst [c] (cutAtCommas (if c = q then none else some q) depth cs)
  | none, depth, c :: cs =>
    if c = ',' && depth = 0 then [] :: cutAtCommas none depth cs
    else if c = '"' || c = '\'' then prependToFirst [c] (cutAtCommas (some c) depth cs)
    else
      let depth := if isOpening c then depth + 1 else if isClosing c then depth - 1 else depth
      prependToFirst [c] (cutAtCommas none depth cs)

/-- The arguments in a text, without the blanks around them; a blank text has none. -/
def splitArguments (cs : List Char) : List String :=
  match (cutAtCommas none 0 cs).map trim with
  | [[]] => []
  | pieces => pieces.map String.ofList

/-- The text before the parenthesis that ends a call; a semicolon may follow. -/
def beforeCallEnd? (cs : List Char) : Option (List Char) :=
  let backward := match cs.reverse.dropWhile isBlank with
    | ';' :: r => r.dropWhile isBlank
    | r => r
  match backward with
  | ')' :: r => some r.reverse
  | _ => none

/-- The call that a text spells. -/
def Call.parse? (cs : List Char) : Option Call :=
  let cs := cs.dropWhile isBlank
  if cs.head?.any isIdentStart then
    match (cs.dropWhile isIdentRest).dropWhile isBlank with
    | '(' :: r => (beforeCallEnd? r).map fun inside =>
      ⟨String.ofList (cs.takeWhile isIdentRest), splitArguments inside⟩
    | _ => none
  else none

end LiveMarkup
