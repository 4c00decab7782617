import LiveMarkup.Markup.Tree

/-!
# Documents

A document keeps its nodes in slots.  A handle names a slot and the generation of the node in it;
when a node is removed the generation of its slot grows, so that handles to it go stale while the
slot is used again.  Reading through a stale handle finds an empty fragment, and writing through it
changes nothing.

Moving a node keeps it alive; removing it frees its whole subtree.
-/

namespace LiveMarkup

/-- A handle to a node. -/
structure NodeId where
  index : Nat
  generation : Nat
  deriving DecidableEq, Inhabited

/-- A place for a node. -/
structure Slot where
  data : NodeData
  generation : Nat := 0
  parent : Option NodeId := none
  children : List NodeId := []
  /-- The marker after which the node was inserted. -/
  owner : Option NodeId := none
  deriving DecidableEq, Inhabited

/-- Nodes in slots; the free slots are listed with the last freed one first. -/
structure Document where
  slots : Array Slot
  free : List Nat
  deriving Inhabited

namespace Document

/-- The handle of the root of any document. -/
def root : NodeId := ⟨0, 0⟩

/-- A document that holds its root alone. -/
def empty : Document :=
  ⟨#[{ data := .root }], []⟩

/-! ## Reading -/

/-- The slot of a live node. -/
def slot? (d : Document) (id : NodeId) : Option Slot :=
  d.slots[id.index]?.filter fun s => s.generation = id.generation

/-- Whether a handle refers to a node that has not been removed. -/
def contains (d : Document) (id : NodeId) : Bool :=
  (d.slot? id).isSome

/-- What a node is. -/
def data (d : Document) (id : NodeId) : NodeData :=
  ((d.slot? id).map Slot.data).getD .fragment

/-- The element that a node is. -/
def element? (d : Document) (id : NodeId) : Option Element :=
  (d.data id).element?

/-- The parent of a node. -/
def parent? (d : Document) (id : NodeId) : Option NodeId :=
  (d.slot? id).bind Slot.parent

/-- The children of a node. -/
def children (d : Document) (id : NodeId) : List NodeId :=
  ((d.slot? id).map Slot.children).getD []

/-- The marker that owns a node. -/
def owner? (d : Document) (id : NodeId) : Option NodeId :=
  (d.slot? id).bind Slot.owner

/-- The number of slots, free ones included. -/
def capacity (d : Document) : Nat :=
  d.slots.size

/-- The number of nodes that have not been removed, detached ones included. -/
def liveNodes (d : Document) : Nat :=
  d.slots.size - d.free.length

/-! ## Writing -/

/-- A document with the slot of a live node changed. -/
def update (d : Document) (id : NodeId) (f : Slot → Slot) : Document :=
  if d.contains id then { d with slots := d.slots.modify id.index f } else d

/-- A document with the owner of a node set. -/
def setOwner (d : Document) (id : NodeId) (owner : Option NodeId) : Document :=
  d.update id fun s => { s with owner }

/-- A document with what a node is changed. -/
def updateData (d : Document) (id : NodeId) (f : NodeData → NodeData) : Document :=
  d.update id fun s => { s with data := f s.data }

/-- A document with an element changed. -/
def updateElement (d : Document) (id : NodeId) (f : Element → Element) : Document :=
  d.updateData id fun
    | .element e => .element (f e)
    | data => data

/-- A document with the text of a comment set. -/
def setComment (d : Document) (id : NodeId) (text : String) : Document :=
  d.updateData id fun
    | .comment _ => .comment text
    | data => data

/-! ## Creating -/

/-- A new node without a parent, in the slot that was freed last or else in a new one. -/
def create (d : Document) (data : NodeData) : NodeId × Document :=
  match d.free with
  | i :: free =>
    let generation := (d.slots[i]?.map Slot.generation).getD 0
    (⟨i, generation⟩, ⟨d.slots.setIfInBounds i { data, generation }, free⟩)
  | [] => (⟨d.slots.size, 0⟩, ⟨d.slots.push { data }, []⟩)

/-! ## Moving -/

/-- A node without its parent. -/
def detach (d : Document) (id : NodeId) : Document :=
  match d.parent? id with
  | none => d
  | some p =>
    (d.update id fun s => { s with parent := none }).update p fun s =>
      { s with children := s.children.filter (· ≠ id) }

/-- A node moved to the end of another one's children. -/
def appendChild (d : Document) (parent child : NodeId) : Document :=
  if d.contains parent && d.contains child then
    ((d.detach child).update child fun s => { s with parent := some parent }).update parent
      fun s => { s with children := s.children ++ [child] }
  else d

/-- Where a node stands among its parent's children. -/
def position? (d : Document) (id : NodeId) : Option Nat := do
  (d.children (← d.parent? id)).findIdx? (· = id)

/-- A node moved to the place right after another one.  Nothing is done, and `false` returned, if
the other node has no parent. -/
def insertAfter (d : Document) (reference child : NodeId) : Bool × Document :=
  if reference = child || !d.contains child then (false, d)
  else
    match d.parent? reference with
    | none => (false, d)
    | some p =>
      let d := d.detach child
      let i := ((d.position? reference).map (· + 1)).getD 0
      (true, (d.update child fun s => { s with parent := some p }).update p fun s =>
        { s with children := s.children.insertIdx i child })

/-! ## Removing -/

/-- The generations that a slot goes through before the first comes again. -/
def generations : Nat := Nat.pow 2 32

/-- A document with the slot of a live node freed. -/
def freeSlot (d : Document) (id : NodeId) : Document :=
  if d.contains id then
    ⟨d.slots.modify id.index fun s =>
      { data := .fragment, generation := (s.generation + 1) % generations }, id.index :: d.free⟩
  else d

/-- A node and all nodes below it, each before its children and the last child first.  The fuel
bounds the depth. -/
def backward (d : Document) : Nat → NodeId → List NodeId
  | 0, id => [id]
  | fuel + 1, id => id :: (d.children id).reverse.flatMap (backward d fuel)

/-- A document with a node and all nodes below it freed. -/
def release (d : Document) (id : NodeId) : Document :=
  (d.backward d.capacity id).foldl freeSlot d

/-- A document without a node and the nodes below it.  The root stays. -/
def remove (d : Document) (id : NodeId) : Document :=
  if id = root || !d.contains id then d else (d.detach id).release id

/-- A document without the nodes below a node. -/
def removeChildren (d : Document) (id : NodeId) : Document :=
  (d.children id).foldl release (d.update id fun s => { s with children := [] })

end Document

end LiveMarkup
