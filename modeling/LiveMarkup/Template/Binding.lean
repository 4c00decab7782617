import LiveMarkup.Template.Tag

/-!
# Binding expressions to markup

The expressions in the markup of a template are moved into binding attributes.  An attribute that
holds one expression is renamed.  The text of an element that holds nothing but text moves into its
`pado-text` attribute; any other text with expressions moves into a `span` of its own.  Comments,
end tags, the content of scripts and stylesheets, and whatever has no expression stay as they are.
-/

namespace LiveMarkup

open Text

/-- A text up to the next opening bracket outside groups of braces, and the text from there on.
Each round passes over a group or a character. -/
def scanText : Nat → List Char → List Char × List Char
  | 0, cs => ([], cs)
  | _ + 1, [] => ([], [])
  | fuel + 1, c :: cs =>
    if c = '<' then ([], c :: cs)
    else
      match braceGroup? (c :: cs) with
      | some (group, rest) =>
        let (a, b) := scanText fuel rest
        (group ++ a, b)
      | none =>
        let (a, b) := scanText fuel cs
        (c :: a, b)

/-- Whether a text holds an expression, leftover directives aside. -/
def hasExpression (cs : List Char) : Bool :=
  (Interpolation.expressions cs).any fun e => e.head? ≠ some '@' && e.head? ≠ some '/'

/-- The attribute that binds a text. -/
def textAttribute (cs : List Char) : List Char :=
  ' ' :: textBinding ++ '=' :: '"' :: escapeAll (trim cs) ++ ['"']

/-- A text between tags, with the expressions in it bound to a `span`; the blanks around it stay. -/
def bindText (cs : List Char) : List Char :=
  if hasExpression cs then
    cs.takeWhile isBlank ++ "<span".toList ++ textAttribute cs ++ "></span>".toList ++
      (cs.reverse.takeWhile isBlank).reverse
  else cs

/-- Whether the end tag of an element stands at the start of a text. -/
def isEndTag (name cs : List Char) : Bool :=
  match after? ['<', '/'] cs with
  | none => false
  | some rest =>
    startsWith name (lowerCase (rest.take name.length)) &&
      (rest.drop name.length).head?.any fun c => c = '>' || isBlank c

/-- The text before the end tag of an element, and the text from there on, if there is an end
tag. -/
def scanToEndTag? (name : List Char) : List Char → Option (List Char × List Char)
  | [] => none
  | c :: cs =>
    if isEndTag name (c :: cs) then some ([], c :: cs)
    else (scanToEndTag? name cs).map fun (a, b) => (c :: a, b)

/-- A tag with an attribute more at its end. -/
def addAttribute (tag added : List Char) : List Char :=
  tag.dropLast ++ added ++ ['>']

/-- What follows a start tag and is taken along with it: the text of a script, a content that is
replaced when the page is shown, or a text that moves into the tag. -/
def bindElement (tag : StartTag) (cs : List Char) : List Char × List Char :=
  let name := String.ofList tag.name
  if name ∈ rawTags then
    let (body, rest) := (scanToEndTag? tag.name cs).getD (cs, [])
    (tag.source ++ body, rest)
  else if tag.selfClosing || name ∈ voidTags then (tag.source, cs)
  else if tag.bindsText then
    let (body, rest) := (scanToEndTag? tag.name cs).getD ([], cs)
    (tag.source ++ body, rest)
  else
    let (text, rest) := scanText cs.length cs
    if isEndTag tag.name rest && hasExpression text then
      (addAttribute tag.source (textAttribute text), rest)
    else (tag.source, cs)

/-- The first piece of markup with its expressions bound, and the text after it. -/
def bindPiece (cs : List Char) : List Char × List Char :=
  match cs with
  | '<' :: '!' :: '-' :: '-' :: body =>
    match cut? "-->".toList body with
    | some (s, rest) => ("<!--".toList ++ s ++ "-->".toList, rest)
    | none => (cs, [])
  | '<' :: '/' :: body =>
    let rest := body.dropWhile (· ≠ '>')
    ('<' :: '/' :: body.takeWhile (· ≠ '>') ++ rest.take 1, rest.drop 1)
  | '<' :: rest =>
    if rest.head?.any Char.isAlpha then
      match scanTag rest.length none rest with
      | some (tag, rest) => bindElement (.ofSource ('<' :: tag)) rest
      | none => (cs, [])
    else (['<'], rest)
  | cs =>
    let (text, rest) := scanText cs.length cs
    (bindText text, rest)

/-- Markup with its expressions bound.  Each round passes over one piece. -/
def bindFrom : Nat → List Char → List Char
  | 0, cs => cs
  | _ + 1, [] => []
  | fuel + 1, cs =>
    let (out, rest) := bindPiece cs
    out ++ bindFrom fuel rest

/-- Markup with its expressions bound. -/
def bindMarkup (cs : List Char) : List Char :=
  bindFrom cs.length cs

end LiveMarkup
