import LiveMarkup.Expr.Substitute
import LiveMarkup.Expr.Variables

/-!
# Texts with expressions in braces

A text may hold expressions in braces, as in `Hello {name}`.  A group of braces ends where its
braces are balanced, strings left aside (`braceGroup?`); an empty group and a brace that is never
closed are plain text.
-/

namespace LiveMarkup

open Text

/-- Whether a character opens and closes a string inside a group. -/
def isGroupQuote (c : Char) : Bool :=
  c = '"' || c = '\'' || c = '\x60'

/-- The text up to the brace that closes `depth` open braces and the text after it.  Inside a string
only its quote counts, and a backslash takes the next character along. -/
def scanGroup : (depth : Nat) → (quote : Option Char) → List Char → Option (List Char × List Char)
  | _, _, [] => none
  | depth, some q, '\\' :: c :: cs =>
    (scanGroup depth (some q) cs).map fun (a, b) => ('\\' :: c :: a, b)
  | depth, some q, c :: cs =>
    (scanGroup depth (if c = q then none else some q) cs).map fun (a, b) => (c :: a, b)
  | depth, none, c :: cs =>
    if c = '\x7d' then
      if depth ≤ 1 then some ([c], cs)
      else (scanGroup (depth - 1) none cs).map fun (a, b) => (c :: a, b)
    else if c = '\x7b' then
      (scanGroup (depth + 1) none cs).map fun (a, b) => (c :: a, b)
    else
      (scanGroup depth (if isGroupQuote c then some c else none) cs).map fun (a, b) => (c :: a, b)

/-- The group of braces at the start of a text, braces included, and the text after it. -/
def braceGroup? : List Char → Option (List Char × List Char)
  | '\x7b' :: cs => (scanGroup 1 none cs).map fun (a, b) => ('\x7b' :: a, b)
  | _ => none

/-- The byte after the group of braces that starts at a given byte. -/
def braceGroupEnd? (source : List Char) (start : Nat) : Option Nat := do
  let (_, rest) ← splitAtByte? start source
  let (group, _) ← braceGroup? rest
  return start + byteLength group

/-- A part of a text with expressions. -/
inductive Piece where
  | plain (c : Char)
  /-- The inside of a group of braces. -/
  | token (inner : List Char)
  deriving DecidableEq

/-- The parts of a text.  Each round passes over a group or a character. -/
def piecesFrom : Nat → List Char → List Piece
  | 0, cs => cs.map .plain
  | _ + 1, [] => []
  | fuel + 1, c :: cs =>
    match braceGroup? (c :: cs) with
    | some (group, rest) =>
      let inner := (group.drop 1).dropLast
      if inner = [] then .plain c :: piecesFrom fuel cs else .token inner :: piecesFrom fuel rest
    | none => .plain c :: piecesFrom fuel cs

namespace Interpolation

/-- The parts of a text. -/
def pieces (source : List Char) : List Piece :=
  piecesFrom source.length source

/-- The expressions of a text, in order. -/
def expressions (source : List Char) : List (List Char) :=
  (pieces source).filterMap fun
    | .token inner => some inner
    | .plain _ => none

/-- The names that the expressions of a text may depend on, each once. -/
def vars (source : List Char) : List String :=
  distinct ((expressions source).flatMap expressionVars)

/-- A text with every group of braces replaced by what its inside is rendered as. -/
def render (f : List Char → List Char) (source : List Char) : List Char :=
  (pieces source).flatMap fun
    | .token inner => f inner
    | .plain c => [c]

/-- A text with a name replaced in its expressions. -/
def substitute (name new source : List Char) : List Char :=
  render (fun inner => '\x7b' :: LiveMarkup.substitute name new inner ++ ['\x7d']) source

end Interpolation

end LiveMarkup
