import LiveMarkup.Template.Marker
import LiveMarkup.Template.Warning
import LiveMarkup.Text.Word

/-!
# Reading directives

A directive opens with `{@if (…)}` or `{@loop … as …}` and closes with `{/if}` or `{/loop}`.  Its
end is found by counting the openers and closers of its kind; its header is read on its own, with
strings and parentheses.
-/

namespace LiveMarkup

open Text

/-- How a directive opens, up to its header. -/
def DirectiveKind.opener (kind : DirectiveKind) : List Char :=
  '\x7b' :: '@' :: kind.keyword.toList

/-- How a directive closes. -/
def DirectiveKind.closer (kind : DirectiveKind) : List Char :=
  '\x7b' :: '/' :: kind.keyword.toList ++ ['\x7d']

/-- The text after the opener of a directive, if one stands at the start: a condition is followed by
a parenthesis, a loop by a blank. -/
def opener? (kind : DirectiveKind) (cs : List Char) : Option (List Char) :=
  (after? kind.opener cs).filter fun rest =>
    match kind with
    | .condition => (rest.dropWhile isBlank).head? = some '('
    | .loop => rest.head?.any isBlank

/-- The directive that opens at the start of a text, and the text after its opener. -/
def directive? (cs : List Char) : Option (DirectiveKind × List Char) :=
  match opener? .condition cs with
  | some rest => some (.condition, rest)
  | none => (opener? .loop cs).map (.loop, ·)

/-- The text up to the closer that ends `depth` open directives of a kind, and the text after the
closer. -/
def scanBlock (kind : DirectiveKind) : (depth : Nat) → List Char → Option (List Char × List Char)
  | _, [] => none
  | depth, c :: cs =>
    if (opener? kind (c :: cs)).isSome then
      (scanBlock kind (depth + 1) cs).map fun (a, b) => (c :: a, b)
    else
      match after? kind.closer (c :: cs) with
      | some rest =>
        if depth ≤ 1 then some ([], rest)
        else (scanBlock kind (depth - 1) cs).map fun (a, b) => (c :: a, b)
      | none => (scanBlock kind depth cs).map fun (a, b) => (c :: a, b)

/-- The text up to the parenthesis that closes `depth` open ones, and the text from there on.
Parentheses in strings do not count, and a backslash in a string takes the next character along. -/
def scanParens : (depth : Nat) → (quote : Option Char) → List Char → Option (List Char × List Char)
  | _, _, [] => none
  | depth, some q, '\\' :: c :: cs =>
    (scanParens depth (some q) cs).map fun (a, b) => ('\\' :: c :: a, b)
  | depth, some q, c :: cs =>
    (scanParens depth (if c = q then none else some q) cs).map fun (a, b) => (c :: a, b)
  | depth, none, c :: cs =>
    if c = ')' then
      if depth ≤ 1 then some ([], c :: cs)
      else (scanParens (depth - 1) none cs).map fun (a, b) => (c :: a, b)
    else
      let depth := if c = '(' then depth + 1 else depth
      let quote := if c = '"' || c = '\'' then some c else none
      (scanParens depth quote cs).map fun (a, b) => (c :: a, b)

/-- The condition in parentheses after the opener of a directive, the header that it stands in up to
the closing brace, and the text after the header.  There is none if the condition is blank. -/
def conditionHeader? (cs : List Char) : Option (List Char × List Char × List Char) :=
  match cs.dropWhile isAsciiBlank with
  | '(' :: r => do
    let (condition, r) ← scanParens 1 none r
    match (r.drop 1).dropWhile isAsciiBlank with
    | '\x7d' :: rest =>
      if trim condition = [] then none
      else some (trim condition, cs.take (cs.length - rest.length), rest)
    | _ => none
  | _ => none

/-- Whether a text is an identifier. -/
def isIdentifier : List Char → Bool
  | [] => false
  | c :: cs => isIdentStart c && cs.all isIdentRest

/-- The array and the name of the item in the header of a loop, which reads ` array as item`.  The
array is written in one line; it is missing where only blanks stand in its place, three or more with
one inside that does not end the line. -/
def loopHeader? (header : List Char) : Option (List Char × List Char) :=
  let words := header.reverse.dropWhile isBlank
  let item := (words.takeWhile (!isBlank ·)).reverse
  match words.dropWhile (!isBlank ·) |>.dropWhile isBlank with
  | 's' :: 'a' :: before =>
    let array := before.dropWhile isBlank
    let lead := array.reverse.takeWhile isBlank
    let array := array.reverse.dropWhile isBlank
    if !isIdentifier item || !before.head?.any isBlank then none
    else if array = [] then
      if (before.drop 1).dropLast.any (· ≠ '\n') then some ([], item) else none
    else if lead = [] || '\n' ∈ array then none
    else some (array, item)
  | _ => none

/-- How a branch of a group of conditions starts. -/
def branchOpener : List Char := '\x7b' :: '@' :: Branch.otherwise.keyword.toList

/-- The branch that starts right after the word for `else`, and the text after it. -/
def branchAfter? (cs : List Char) : Option (Branch × List Char) :=
  match cs with
  | '\x7d' :: rest => some (.otherwise, rest)
  | 'i' :: 'f' :: rest =>
    if (rest.dropWhile isBlank).head? = some '(' then some (.elseIf, rest) else none
  | _ => none

/-- The text before the first branch, the branch, and the text after its opener. -/
def findBranch? : List Char → Option (List Char × Branch × List Char)
  | [] => none
  | c :: cs =>
    match (after? branchOpener (c :: cs)).bind branchAfter? with
    | some (branch, rest) => some ([], branch, rest)
    | none => (findBranch? cs).map fun (a, b) => (c :: a, b)

/-- The beginning of a text as a warning shows it: its first line, at most eighty characters. -/
def firstLine (cs : List Char) : String :=
  let line := cs.takeWhile (· ≠ '\n')
  let line := if line.length < cs.length && line.getLast? = some '\r' then line.dropLast else line
  String.ofList (line.take 80)

end LiveMarkup
