import LiveMarkup.Document.Basic

/-!
# Looking into documents

Below every node of a document there is a tree, and what a document shows is a function of that tree
(`Document.subtree`).  Nodes are found in document order: each before its children.
-/

namespace LiveMarkup.Document

/-- The tree below a node; the fuel bounds its depth. -/
def subtreeTo (d : Document) : Nat → NodeId → Tree
  | 0, id => .node (d.data id) []
  | fuel + 1, id => .node (d.data id) ((d.children id).map (subtreeTo d fuel))

/-- The tree below a node.  No node is deeper than there are slots. -/
def subtree (d : Document) (id : NodeId) : Tree :=
  d.subtreeTo d.capacity id

/-- The content of a node as markup. -/
def innerHtml (d : Document) (id : NodeId) : List Char :=
  Tree.renderAll (d.subtree id).children

/-- A node with its content as markup. -/
def outerHtml (d : Document) (id : NodeId) : List Char :=
  (d.subtree id).render

/-- A document as markup. -/
def toHtml (d : Document) : List Char :=
  d.innerHtml root

/-- The text that a node shows. -/
def textContent (d : Document) (id : NodeId) : List Char :=
  (d.subtree id).textContent

/-- The nodes below a node in document order; the fuel bounds the depth. -/
def descendantsTo (d : Document) : Nat → NodeId → List NodeId
  | 0, _ => []
  | fuel + 1, id => (d.children id).flatMap fun c => c :: descendantsTo d fuel c

/-- The nodes below a node in document order. -/
def descendants (d : Document) (id : NodeId) : List NodeId :=
  d.descendantsTo d.capacity id

/-- The elements below a node in document order. -/
def elements (d : Document) (id : NodeId) : List NodeId :=
  (d.descendants id).filter fun n => (d.element? n).isSome

/-- The comments below a node in document order, with their texts. -/
def comments (d : Document) (id : NodeId) : List (NodeId × String) :=
  (d.descendants id).filterMap fun n => (d.data n).comment?.map (n, ·)

/-- The first element with a tag below a node. -/
def findTag? (d : Document) (id : NodeId) (tag : String) : Option NodeId :=
  (d.descendants id).find? fun n => (d.element? n).any fun e => e.tag = tag

/-- The elements with an attribute below a node. -/
def withAttribute (d : Document) (id : NodeId) (name : String) : List NodeId :=
  (d.descendants id).filter fun n => (d.element? n).any fun e => e.hasAttribute name

/-- The first element with an attribute below a node. -/
def findAttribute? (d : Document) (id : NodeId) (name : String) : Option NodeId :=
  (d.withAttribute id name).head?

/-- The attributes of an element; none for other nodes. -/
def attributes (d : Document) (id : NodeId) : List (String × String) :=
  ((d.element? id).map Element.attributes).getD []

/-- The value of an attribute of an element. -/
def attribute? (d : Document) (id : NodeId) (name : String) : Option String :=
  (d.element? id).bind fun e => e.attribute? name

/-- The siblings after a node, in order. -/
def followingSiblings (d : Document) (id : NodeId) : List NodeId :=
  match d.parent? id, d.position? id with
  | some p, some i => (d.children p).drop (i + 1)
  | _, _ => []

/-- The sibling right after a node. -/
def nextSibling? (d : Document) (id : NodeId) : Option NodeId :=
  (d.followingSiblings id).head?

/-- The parent of a node, its parent, and so on; the fuel bounds their number. -/
def ancestorsTo (d : Document) : Nat → NodeId → List NodeId
  | 0, _ => []
  | fuel + 1, id =>
    match d.parent? id with
    | none => []
    | some p => p :: ancestorsTo d fuel p

/-- The nodes above a node, the nearest first. -/
def ancestors (d : Document) (id : NodeId) : List NodeId :=
  d.ancestorsTo d.capacity id

/-- Whether a node is the root or stands below it. -/
def isAttached (d : Document) (id : NodeId) : Bool :=
  id = root || root ∈ d.ancestors id

/-- Whether a node stands below another one. -/
def isDescendant (d : Document) (ancestor id : NodeId) : Bool :=
  ancestor ∈ d.ancestors id

end LiveMarkup.Document
