import LiveMarkup.Document.Basic
import LiveMarkup.Markup.Parse

/-!
# Putting markup into documents

Parsed markup is grafted onto a node: every tree becomes new nodes, created in document order.
-/

namespace LiveMarkup.Document

mutual

/-- A document with a tree grafted onto a node, after the children that are there. -/
def graft (d : Document) (parent : NodeId) : Tree → Document
  | .node data ts =>
    let (id, d) := d.create data
    graftAll (d.appendChild parent id) id ts

/-- A document with trees grafted onto a node, one after the other. -/
def graftAll (d : Document) (parent : NodeId) : List Tree → Document
  | [] => d
  | t :: ts => graftAll (graft d parent t) parent ts

end

/-- A document with markup added to the children of a node. -/
def parseInto (d : Document) (parent : NodeId) (html : List Char) : Document :=
  d.graftAll parent (Tree.parse html)

/-- The document that a markup text describes. -/
def parse (html : List Char) : Document :=
  empty.parseInto root html

/-- A new fragment that holds markup. -/
def createFragment (d : Document) (html : List Char) : NodeId × Document :=
  let (id, d) := d.create .fragment
  (id, d.parseInto id html)

/-- A document with the content of a node replaced by markup. -/
def setInnerHtml (d : Document) (id : NodeId) (html : List Char) : Document :=
  (d.removeChildren id).parseInto id html

end LiveMarkup.Document
