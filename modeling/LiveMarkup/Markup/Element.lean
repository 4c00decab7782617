import LiveMarkup.Keyed

/-!
# Elements

An element has a tag in lower case, attributes in the order of the source, and properties that live
apart from its attributes.  What properties it has depends on its kind.
-/

namespace LiveMarkup

/-- A name in lower case, as far as its letters are ASCII. -/
def lowerCase (cs : List Char) : List Char :=
  cs.map Char.toLower

/-- The kinds of elements that differ in their properties. -/
inductive ElementKind where
  | input
  | textArea
  | select
  | button
  | other
  deriving DecidableEq

namespace ElementKind

/-- The kind of the elements with a given tag, in any case. -/
def ofTag (tag : String) : ElementKind :=
  match String.ofList (lowerCase tag.toList) with
  | "input" => input
  | "textarea" => textArea
  | "select" => select
  | "button" => button
  | _ => other

/-- Whether elements of a kind have a flag. -/
def hasFlag (kind : ElementKind) (name : String) : Bool :=
  match name with
  | "checked" => kind = input
  | "disabled" => kind ≠ other
  | "readonly" => kind = input || kind = textArea
  | _ => false

/-- Whether elements of a kind have a value. -/
def hasValue (kind : ElementKind) : Bool :=
  kind = input || kind = textArea || kind = select

end ElementKind

/-- The tags of elements that have neither content nor an end tag. -/
def voidTags : List String :=
  ["area", "base", "br", "col", "embed", "hr", "img", "input", "link", "meta", "source", "track",
    "wbr"]

/-- The tags of elements whose content is text and not markup. -/
def rawTags : List String := ["script", "style"]

/-- What an element is apart from its content. -/
structure Element where
  tag : String
  attributes : List (String × String) := []
  /-- The value of the element, where it was set. -/
  value : Option String := none
  /-- The flags of the element that were set, by name. -/
  flags : List (String × Bool) := []
  deriving DecidableEq, Inhabited

namespace Element

/-- A new element. -/
def ofTag (tag : String) : Element :=
  { tag := String.ofList (lowerCase tag.toList) }

/-- The kind of an element. -/
def kind (e : Element) : ElementKind :=
  .ofTag e.tag

/-- Whether an element has neither content nor an end tag. -/
def isVoid (e : Element) : Bool :=
  e.tag ∈ voidTags

/-- Whether the content of an element is text and not markup. -/
def isRaw (e : Element) : Bool :=
  e.tag ∈ rawTags

/-- The value of an attribute. -/
def attribute? (e : Element) (name : String) : Option String :=
  e.attributes.lookup name

/-- Whether an element has an attribute. -/
def hasAttribute (e : Element) (name : String) : Bool :=
  (e.attribute? name).isSome

/-- Attributes with one of them set: where it is, or else at the end. -/
def setIn (name value : String) : List (String × String) → List (String × String)
  | [] => [(name, value)]
  | (k, v) :: rest => if k = name then (k, value) :: rest else (k, v) :: setIn name value rest

/-- An element with an attribute set. -/
def setAttribute (e : Element) (name value : String) : Element :=
  { e with attributes := setIn name value e.attributes }

/-- Attributes without the first one of a name. -/
def removeIn (name : String) : List (String × String) → List (String × String)
  | [] => []
  | (k, v) :: rest => if k = name then rest else (k, v) :: removeIn name rest

/-- An element without an attribute. -/
def removeAttribute (e : Element) (name : String) : Element :=
  { e with attributes := removeIn name e.attributes }

/-- An element with a flag set. -/
def setFlag (e : Element) (name : String) (b : Bool) : Element :=
  { e with flags := insertByKey name b e.flags }

/-- An element with its value set. -/
def setValue (e : Element) (value : String) : Element :=
  { e with value := some value }

end Element

end LiveMarkup
