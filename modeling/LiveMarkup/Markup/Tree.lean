import LiveMarkup.Markup.Element
import LiveMarkup.Markup.Entity

/-!
# Trees of markup

A piece of markup is a list of trees.  Writing it out is a function of the trees alone, and so is
the text that it shows.
-/

namespace LiveMarkup

/-- What a node is apart from its children. -/
inductive NodeData where
  | root
  /-- A container of nodes that belong to no document yet. -/
  | fragment
  | element (e : Element)
  | text (s : String)
  | comment (s : String)
  | doctype (s : String)
  deriving DecidableEq, Inhabited

namespace NodeData

/-- The element that a node is. -/
def element? : NodeData → Option Element
  | element e => some e
  | _ => none

/-- The text of the comment that a node is. -/
def comment? : NodeData → Option String
  | comment s => some s
  | _ => none

end NodeData

/-- A node with its children. -/
inductive Tree where
  | node (data : NodeData) (children : List Tree)
  deriving Inhabited

namespace Tree

/-- What the topmost node is. -/
def data : Tree → NodeData
  | node d _ => d

/-- The children of the topmost node. -/
def children : Tree → List Tree
  | node _ ts => ts

/-- A node without children. -/
def leaf (data : NodeData) : Tree :=
  node data []

/-- The start tag of an element. -/
def startTag (e : Element) : List Char :=
  '<' :: e.tag.toList ++ e.attributes.flatMap (fun (name, value) =>
    ' ' :: name.toList ++ '=' :: '"' :: escapeAttribute value.toList ++ ['"']) ++ ['>']

mutual

/-- A tree as markup. -/
def render : Tree → List Char
  | node .root ts => renderAll ts
  | node .fragment ts => renderAll ts
  | node (.element e) ts =>
    if e.isVoid then startTag e
    else startTag e ++ (if e.isRaw then renderRaw ts else renderAll ts) ++
      '<' :: '/' :: e.tag.toList ++ ['>']
  | node (.text s) _ => escapeText s.toList
  | node (.comment s) _ => "<!--".toList ++ s.toList ++ "-->".toList
  | node (.doctype s) _ => "<!".toList ++ s.toList ++ ['>']

/-- Trees as markup, one after the other. -/
def renderAll : List Tree → List Char
  | [] => []
  | t :: ts => render t ++ renderAll ts

/-- The content of an element that holds text and not markup. -/
def renderRaw : List Tree → List Char
  | [] => []
  | node (.text s) _ :: ts => s.toList ++ renderRaw ts
  | t :: ts => render t ++ renderRaw ts

end

mutual

/-- The text that a tree shows. -/
def textContent : Tree → List Char
  | node (.text s) _ => s.toList
  | node (.comment _) _ => []
  | node (.doctype _) _ => []
  | node .root ts => textContentAll ts
  | node .fragment ts => textContentAll ts
  | node (.element _) ts => textContentAll ts

/-- The text that trees show, one after the other. -/
def textContentAll : List Tree → List Char
  | [] => []
  | t :: ts => textContent t ++ textContentAll ts

end

end Tree

end LiveMarkup
