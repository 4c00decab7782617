import LiveMarkup.Document.Owned
import LiveMarkup.Handler.Attribute
import LiveMarkup.Page.Binding
import LiveMarkup.Page.Records

/-!
# Showing a state in a document

A view is a document with the records of the markers in it.  To show a state takes four steps:
conditions, loops, texts and attributes.  Each step goes through the document as it finds it and
passes over what the update does not concern.  New content, for a block of a group or an item of a
loop, is made as a fragment of its own in which everything is shown (`View.build`) before it goes
after its marker.
-/

namespace LiveMarkup

open Text

/-- How a state is shown. -/
structure ViewOptions where
  /-- Accesses to fixed array items are named before an expression is evaluated. -/
  namesItems : Bool := false
  /-- Handlers in new content are completed. -/
  completeHandlers : Bool := false
  /-- How much deeper than there are groups and loops they may be nested when they are shown.  Only
  a directive that shows itself again in its own content goes deeper than their number. -/
  depth : Nat := 4294967296
  deriving DecidableEq, Inhabited

/-- The options with handlers completed. -/
def ViewOptions.completing (o : ViewOptions) : ViewOptions :=
  { o with completeHandlers := true }

/-- How many groups, loops, texts and attributes were shown. -/
structure ViewStats where
  conditions : Nat := 0
  loops : Nat := 0
  texts : Nat := 0
  attributes : Nat := 0
  deriving DecidableEq, Inhabited

/-- A document with the records of its markers. -/
structure View where
  records : Records
  document : Document
  deriving Inhabited

namespace View

/-- How a fragment is made from markup in a scope. -/
abbrev Build := Scope → List Char → View → NodeId × View

/-- The block of a group that is shown: the first one without a condition or with a true one. -/
def chosenBlock (o : ViewOptions) (scope : Scope) (g : ConditionGroup) : Option Block :=
  g.blocks.find? fun b =>
    match b.kind with
    | .otherwise => true
    | .first | .elseIf =>
      b.condition.any fun c => (valueOf o.namesItems scope c.toList).isTruthy

/-- A view with a group shown after its marker. -/
def showGroup (build : Build) (o : ViewOptions) (scope : Scope) (marker : NodeId)
    (g : ConditionGroup) (v : View) : View :=
  let v := { v with document := (v.document.clearOwned marker).2 }
  match chosenBlock o scope g with
  | none => v
  | some b =>
    if trim b.content.toList = [] then v
    else
      let (fragment, v) := build scope b.content.toList v
      { v with document := (v.document.insertOwned marker fragment).2 }

/-- The scope of the content of a loop at an item. -/
def itemScope (scope : Scope) (l : LoopDefinition) (i : Nat) (item : Value) : Scope :=
  let access := String.ofList (trim l.array.toList ++ bracketed i)
  ((scope.child.set indexName (.number (Float.ofNat i))).set access item).set l.item item

/-- A view with the items of a loop from some position on added to a fragment. -/
def addItems (build : Build) (o : ViewOptions) (scope : Scope) (l : LoopDefinition) (target : NodeId) :
    Nat → List Value → View → View
  | _, [], v => v
  | i, item :: items, v =>
    let (html, records) := v.records.body o.depth l i
    let (fragment, v) := build (itemScope scope l i item) html { v with records }
    addItems build o scope l target (i + 1) items
      { v with document := v.document.appendFragment target fragment }

/-- A view with a loop over the given items shown after its marker. -/
def showLoop (build : Build) (o : ViewOptions) (scope : Scope) (marker : NodeId)
    (l : LoopDefinition) (items : List Value) (v : View) : View :=
  let (target, document) := (v.document.clearOwned marker).2.createFragment []
  let v := addItems build o scope l target 0 items { v with document }
  { v with document := (v.document.insertOwned marker target).2 }

/-- What the comments below a node that mark directives of a kind show, and how many of them showed
something.  A marker that is gone when its turn comes is passed over. -/
def showMarkers (kind : DirectiveKind) (shows : NodeId → String → View → Option View)
    (under : NodeId) (v : View) : Nat × View :=
  (v.document.comments under).foldl (fun (n, v) (id, text) =>
    match Marker.ofComment? text with
    | none => (n, v)
    | some m =>
      if m.kind = kind && v.document.isDescendant under id then
        match shows id m.name v with
        | some v => (n + 1, v)
        | none => (n, v)
      else (n, v)) (0, v)

/-- A view with the groups below a node shown, and how many they are. -/
def showGroups (build : Build) (o : ViewOptions) (scope : Scope) (u : Update) (under : NodeId)
    (v : View) : Nat × View :=
  v.showMarkers .condition (fun id name v => do
    let g ← v.records.group? name
    if u.meets g.vars then some (v.showGroup build o scope id g) else none) under

/-- A view with the loops below a node shown, and how many they are. -/
def showLoops (build : Build) (o : ViewOptions) (scope : Scope) (u : Update) (under : NodeId)
    (v : View) : Nat × View :=
  v.showMarkers .loop (fun id name v => do
    let l ← v.records.loop? name
    if u.meets l.vars then
      let items ← (valueOf o.namesItems scope l.array.toList).items?
      some (v.showLoop build o scope id l items)
    else none) under

/-- A view with a state shown below a node, in four steps. -/
def showWith (build : Build) (o : ViewOptions) (scope : Scope) (u : Update) (under : NodeId)
    (v : View) : ViewStats × View :=
  let (conditions, v) := v.showGroups build o scope u under
  let (loops, v) := v.showLoops build o scope u under
  let (texts, document) := v.document.showTexts o.namesItems scope u under
  let (attributes, document) := document.showAttributes o.namesItems scope u under
  ({ conditions, loops, texts, attributes }, { v with document })

/-- A fragment made from markup, with its handlers completed if that is wanted. -/
def newFragment (o : ViewOptions) (html : List Char) (v : View) : NodeId × View :=
  let (id, document) := v.document.createFragment html
  let document := if o.completeHandlers then document.completeHandlers id else document
  (id, { v with document })

/-- A fragment made from markup, with everything in it shown.  The fuel bounds how deep directives
are nested: where it has run out the fragment is made and left as it is. -/
def build (o : ViewOptions) : Nat → Build
  | 0, _, html, v => v.newFragment o html
  | fuel + 1, scope, html, v =>
    let (id, v) := v.newFragment o html
    (id, (showWith (build o fuel) o scope .all id v).2)

/-- A view with a state shown below a node.  A directive that does not show itself again is not
nested deeper than there are groups and loops; one that does may go on for `o.depth` levels more. -/
def showUnder (o : ViewOptions) (scope : Scope) (u : Update) (under : NodeId) (v : View) :
    ViewStats × View :=
  if u.isEmpty then ({}, v) else v.showWith (build o (v.records.size + 1 + o.depth)) o scope u under

/-- A view with a state shown. -/
def render (o : ViewOptions) (scope : Scope) (u : Update) (v : View) : ViewStats × View :=
  v.showUnder o scope u Document.root

/-- The view of a template in a document. -/
def ofTemplate (t : Template) (document : Document) : View :=
  { records := .ofTemplate t, document }

end View

end LiveMarkup
