import LiveMarkup.Document.Query

/-!
# Content that belongs to a marker

Nodes that are inserted after a marker are owned by it.  Clearing a marker removes the siblings
after it that it owns, and those owned by the nodes that are removed; other siblings stay.
-/

namespace LiveMarkup.Document

/-- Siblings walked in order: those with an owner among `owners` are removed and become owners
themselves. -/
def clearAmong (d : Document) (owners : List NodeId) : List NodeId → Nat × Document
  | [] => (0, d)
  | s :: siblings =>
    if (d.owner? s).any (· ∈ owners) then
      let (n, d) := clearAmong (d.remove s) (s :: owners) siblings
      (n + 1, d)
    else clearAmong d owners siblings

/-- A document without the content that a marker owns, and how many siblings were removed. -/
def clearOwned (d : Document) (marker : NodeId) : Nat × Document :=
  d.clearAmong [marker] (d.followingSiblings marker)

/-- A document without a fragment that has become empty. -/
def releaseFragment (d : Document) (fragment : NodeId) : Document :=
  if d.data fragment = .fragment && d.children fragment = [] then d.remove fragment else d

/-- Nodes moved, in order, to the places after an anchor.  A node without an owner becomes owned by
the marker. -/
def insertOwnedAfter (marker : NodeId) : Document → NodeId → List NodeId → Document
  | d, _, [] => d
  | d, anchor, c :: cs =>
    let d := if (d.owner? c).isNone then d.setOwner c (some marker) else d
    insertOwnedAfter marker (d.insertAfter anchor c).2 c cs

/-- The children of a fragment moved after a marker as its content, and how many they are. -/
def insertOwned (d : Document) (marker fragment : NodeId) : Nat × Document :=
  let children := d.children fragment
  (children.length, (insertOwnedAfter marker d marker children).releaseFragment fragment)

/-- The children of a fragment moved to the end of a node's children. -/
def appendFragment (d : Document) (target fragment : NodeId) : Document :=
  ((d.children fragment).foldl (fun d c => d.appendChild target c) d).releaseFragment fragment

end LiveMarkup.Document
