import LiveMarkup.Expr.Lexer

/-!
# The names in an expression text

Which names an expression depends on is estimated from its text: every word outside strings counts
that could be a name, property names included.  Too many names cost a needless evaluation; too few
would leave a page out of date.
-/

namespace LiveMarkup

open Text

/-- A text with every closed string replaced by a blank.  Each round passes over a character or a
string. -/
def blankStrings : Nat → List Char → List Char
  | 0, cs => cs
  | _ + 1, [] => []
  | fuel + 1, c :: cs =>
    if c = '"' || c = '\'' then
      match scanQuoted c cs with
      | some (_, rest) => ' ' :: blankStrings fuel rest
      | none => c :: blankStrings fuel cs
    else c :: blankStrings fuel cs

/-- The runs of word characters in a text. -/
def wordRuns (cs : List Char) : List (List Char) :=
  (cs.splitBy fun a b => isWord a == isWord b).filter fun run => run.head?.any isWord

/-- Whether a run of word characters can be a plain name. -/
def isPlainName : List Char → Bool
  | [] => false
  | c :: cs => isNameStart c && cs.all isNameRest

/-- How the names begin that are kept for internal use. -/
def internalStart : List Char := "__STR".toList

/-- The names that an expression text may depend on, each once, in the order of the text. -/
def expressionVars (source : List Char) : List String :=
  let words := (wordRuns (blankStrings source.length source)).filter fun w =>
    isPlainName w && !startsWith internalStart w
  distinct ((words.map String.ofList).filter fun w => (Reserved.ofSpelling? w).isNone)

end LiveMarkup
