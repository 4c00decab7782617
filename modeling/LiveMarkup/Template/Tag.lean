import LiveMarkup.Interpolation
import LiveMarkup.Markup.Entity
import LiveMarkup.Markup.Event

/-!
# Start tags of templates

In a template the tags are read with their expressions: quotes and groups of braces are passed over
as units when the end of a tag is looked for.  A tag is cut into parts that together are its source
(`TagPart.source`); a part that binds an expression to an attribute is written anew.
-/

namespace LiveMarkup

open Text

/-- A tag up to its closing bracket, and the text after it.  The first bracket is left out.  Each
round passes over a group of braces or a character. -/
def scanTag : Nat → Option Char → List Char → Option (List Char × List Char)
  | 0, _, _ => none
  | _ + 1, _, [] => none
  | fuel + 1, some q, c :: cs =>
    (scanTag fuel (if c = q then none else some q) cs).map fun (a, b) => (c :: a, b)
  | fuel + 1, none, c :: cs =>
    if c = '>' then some ([c], cs)
    else if c = '"' || c = '\'' then
      (scanTag fuel (some c) cs).map fun (a, b) => (c :: a, b)
    else
      match braceGroup? (c :: cs) with
      | some (group, rest) => (scanTag fuel none rest).map fun (a, b) => (group ++ a, b)
      | none => (scanTag fuel none cs).map fun (a, b) => (c :: a, b)

/-- A part of a start tag after its name. -/
inductive TagPart where
  /-- Blanks and a slash that does not end the tag. -/
  | slash (gap : List Char)
  | bare (gap name : List Char)
  /-- `link` is what stands between the name and the value, `raw` the value without its quotes. -/
  | assigned (gap name link opening raw closing : List Char)
  | ending (source : List Char)
  deriving DecidableEq

/-- The text of a part. -/
def TagPart.source : TagPart → List Char
  | slash gap => gap ++ ['/']
  | bare gap name => gap ++ name
  | assigned gap name link opening raw closing =>
    gap ++ name ++ link ++ opening ++ raw ++ closing
  | ending source => source

/-- The value of an attribute: an opening quote, the text, a closing quote, and what follows. -/
def scanTagValue (cs : List Char) : List Char × List Char × List Char × List Char :=
  match cs with
  | [] => ([], [], [], [])
  | c :: r =>
    if c = '"' || c = '\'' then
      let rest := r.dropWhile (· ≠ c)
      ([c], r.takeWhile (· ≠ c), rest.take 1, rest.drop 1)
    else
      match braceGroup? cs with
      | some (group, rest) => ([], group, [], rest)
      | none =>
        let inside (c : Char) : Bool := !isAsciiBlank c && c ≠ '>'
        ([], cs.takeWhile inside, [], cs.dropWhile inside)

/-- The parts of a tag after its name.  Each round takes a part. -/
def tagParts : Nat → List Char → List TagPart
  | 0, cs => [.ending cs]
  | fuel + 1, cs =>
    let gap := cs.takeWhile isAsciiBlank
    match cs.dropWhile isAsciiBlank with
    | [] => [.ending cs]
    | '>' :: _ => [.ending cs]
    | '/' :: '>' :: _ => [.ending cs]
    | '/' :: r => .slash gap :: tagParts fuel r
    | r =>
      let (name, r) := scanAttributeName r
      match r.dropWhile isAsciiBlank with
      | '=' :: v =>
        let (opening, raw, closing, rest) := scanTagValue (v.dropWhile isAsciiBlank)
        let link := r.takeWhile isAsciiBlank ++ '=' :: v.takeWhile isAsciiBlank
        .assigned gap name link opening raw closing :: tagParts fuel rest
      | _ => .bare gap name :: tagParts fuel r

/-- The expression that a text holds if it is one group of braces, blanks around it aside. -/
def singleExpression? (raw : List Char) : Option (List Char) :=
  match braceGroup? (trim raw) with
  | some (group, []) => some (group.drop 1).dropLast
  | _ => none

/-- How the names of binding attributes start. -/
def bindingStart : List Char := "pado-".toList

/-- A part of a tag with its binding written out.  An attribute whose value is one expression
becomes a binding attribute; a handler keeps its braces, in quotes. -/
def TagPart.withBinding : TagPart → List Char
  | assigned gap name link opening raw closing =>
    let lower := lowerCase name
    let isHandler := startsWith "on".toList lower
    match singleExpression? raw with
    | some e =>
      if isHandler then
        if opening = [] then gap ++ name ++ '=' :: '"' :: escapeQuote raw ++ ['"']
        else (assigned gap name link opening raw closing).source
      else if startsWith bindingStart lower then
        (assigned gap name link opening raw closing).source
      else gap ++ bindingStart ++ name ++ '=' :: '"' :: escapeQuote (trim e) ++ ['"']
    | none => (assigned gap name link opening raw closing).source
  | part => part.source

/-- The attribute that holds the text of an element. -/
def textBinding : List Char := "pado-text".toList

/-- Whether a part is the attribute that holds the text of the element. -/
def TagPart.bindsText : TagPart → Bool
  | bare _ name | assigned _ name _ _ _ _ => lowerCase name = textBinding
  | slash _ | ending _ => false

/-- Whether a part ends the tag of an element without content. -/
def TagPart.closesItself : TagPart → Bool
  | ending source => startsWith "/>".toList (source.dropWhile isAsciiBlank)
  | _ => false

/-- A start tag with its bindings written out. -/
structure StartTag where
  /-- The name in lower case. -/
  name : List Char
  source : List Char
  selfClosing : Bool
  bindsText : Bool
  deriving DecidableEq

/-- The start tag with a given source. -/
def StartTag.ofSource (source : List Char) : StartTag :=
  let isNameEnd (c : Char) : Bool := isAsciiBlank c || c = '>' || c = '/'
  let name := (source.drop 1).takeWhile (!isNameEnd ·)
  let parts := tagParts source.length ((source.drop 1).dropWhile (!isNameEnd ·))
  { name := lowerCase name
    source := source.take 1 ++ name ++ parts.flatMap TagPart.withBinding
    selfClosing := parts.any TagPart.closesItself
    bindsText := parts.any TagPart.bindsText }

end LiveMarkup
