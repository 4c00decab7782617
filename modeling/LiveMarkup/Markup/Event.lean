import LiveMarkup.Markup.Tree
import LiveMarkup.Text.Blank

/-!
# Reading markup piece by piece

Markup is read as a sequence of events: a whole node, the start of an element, or the end of one.
Every text is markup: what is malformed is read as something, and nothing is refused.
-/

namespace LiveMarkup

open Text

/-- A piece of markup. -/
inductive Event where
  /-- A node that is complete: a text, a comment, a doctype, or an element with its content. -/
  | whole (t : Tree)
  | start (e : Element)
  | stop (tag : String)
  deriving Inhabited

/-- The name of an attribute, and the text after it. -/
def scanAttributeName : List Char → List Char × List Char
  | [] => ([], [])
  | '/' :: '>' :: cs => ([], '/' :: '>' :: cs)
  | c :: cs =>
    if isAsciiBlank c || c = '=' || c = '>' then ([], c :: cs)
    else
      let (a, b) := scanAttributeName cs
      (c :: a, b)

/-- The value of an attribute after the sign of equality, in quotes or up to a blank or the end of
the tag, and the text after it. -/
def scanAttributeValue (cs : List Char) : List Char × List Char :=
  match cs.dropWhile isAsciiBlank with
  | [] => ([], [])
  | q :: r =>
    if q = '"' || q = '\'' then (r.takeWhile (· ≠ q), (r.dropWhile (· ≠ q)).drop 1)
    else
      ((q :: r).takeWhile (fun c => !isAsciiBlank c && c ≠ '>'),
        (q :: r).dropWhile (fun c => !isAsciiBlank c && c ≠ '>'))

/-- An attribute, with its value decoded, and the text after it. -/
def scanAttribute (cs : List Char) : String × String × List Char :=
  let (name, rest) := scanAttributeName cs
  let name := String.ofList (lowerCase name)
  match rest.dropWhile isAsciiBlank with
  | '=' :: r =>
    let (value, rest) := scanAttributeValue r
    (name, String.ofList (decodeEntities value), rest)
  | _ => (name, "", rest)

/-- The attributes of a tag up to its end, whether the tag closes itself, and the text after it.  Of
equal names the first counts.  Each round takes a character at least. -/
def scanAttributes : Nat → List (String × String) → List Char →
    List (String × String) × Bool × List Char
  | 0, attributes, cs => (attributes, false, cs)
  | fuel + 1, attributes, cs =>
    match cs.dropWhile isAsciiBlank with
    | [] => (attributes, false, [])
    | '>' :: r => (attributes, false, r)
    | '/' :: '>' :: r => (attributes, true, r)
    | '/' :: r => scanAttributes fuel attributes r
    | cs =>
      let (name, value, rest) := scanAttribute cs
      let attributes :=
        if name = "" || (attributes.lookup name).isSome then attributes
        else attributes ++ [(name, value)]
      scanAttributes fuel attributes rest

/-- Whether a text begins with a given one in lower case, whatever the case of its letters. -/
def startsWithLower (mark cs : List Char) : Bool :=
  startsWith mark (lowerCase (cs.take mark.length))

/-- The text before the end tag of an element, and the text from there on. -/
def scanRaw (closing : List Char) : List Char → List Char × List Char
  | [] => ([], [])
  | c :: cs =>
    if startsWithLower closing (c :: cs) then ([], c :: cs)
    else
      let (a, b) := scanRaw closing cs
      (c :: a, b)

/-- The text up to the end of a tag, and the text after it. -/
def scanToTagEnd (cs : List Char) : List Char × List Char :=
  (cs.takeWhile (· ≠ '>'), (cs.dropWhile (· ≠ '>')).drop 1)

/-- A text as a node. -/
def textEvent (s : List Char) : Event :=
  .whole (.leaf (.text (String.ofList s)))

/-- The element whose start tag follows an opening bracket. -/
def readElement (cs : List Char) : Event × List Char :=
  let isNameEnd (c : Char) : Bool := isAsciiBlank c || c = '>' || c = '/'
  let name := cs.takeWhile (!isNameEnd ·)
  let rest := cs.dropWhile (!isNameEnd ·)
  let (attributes, selfClosing, rest) := scanAttributes (rest.length + 1) [] rest
  let e : Element := { Element.ofTag (String.ofList name) with attributes }
  if selfClosing || e.isVoid then (.whole (.leaf (.element e)), rest)
  else if e.isRaw then
    let (text, rest) := scanRaw ('<' :: '/' :: e.tag.toList) rest
    let content := if text = [] then [] else [Tree.leaf (.text (String.ofList text))]
    (.whole (.node (.element e) content), (scanToTagEnd rest).2)
  else (.start e, rest)

/-- The piece at the start of a text, and the text after it. -/
def readEvent (cs : List Char) : Event × List Char :=
  match cs with
  | '<' :: '!' :: '-' :: '-' :: body =>
    match cut? "-->".toList body with
    | some (s, rest) => (.whole (.leaf (.comment (String.ofList s))), rest)
    | none => (.whole (.leaf (.comment (String.ofList body))), [])
  | '<' :: '!' :: body =>
    let (s, rest) := scanToTagEnd body
    (.whole (.leaf (.doctype (String.ofList (trim s)))), rest)
  | '<' :: '/' :: body =>
    let (s, rest) := scanToTagEnd body
    (.stop (String.ofList (lowerCase (trim s))), rest)
  | '<' :: rest =>
    if rest.head?.any Char.isAlpha then readElement rest else (textEvent ['<'], rest)
  | cs => (textEvent (decodeEntities (cs.takeWhile (· ≠ '<'))), cs.dropWhile (· ≠ '<'))

/-- The pieces of a text.  Each round reads one. -/
def eventsFrom : Nat → List Char → List Event
  | 0, _ => []
  | _ + 1, [] => []
  | fuel + 1, cs =>
    let (event, rest) := readEvent cs
    event :: eventsFrom fuel rest

/-- The pieces of a markup text. -/
def events (cs : List Char) : List Event :=
  eventsFrom cs.length cs

end LiveMarkup
