import LiveMarkup.Proofs.Document.Course
import LiveMarkup.Proofs.Page.Refinement

/-!
# What happens in a pass

A pass over a document is told as a list of events: the operations that are applied to the document,
one after the other, and the turns that groups and loops have at their markers.  The functions here
follow those that show a state, one for one, and say what these do on the way.  An operation in the
trace is applied to the document that all operations before it have made (`run_operations_trace`, where
it is proved that the trace of a pass leads to the document that the pass leaves).

The trace also says where a fragment was left as it was made because directives were nested too deep
(`Event.cut`).
-/

namespace LiveMarkup

open Text

namespace View

open Document

/-- The turn of a loop at a marker. -/
structure Turn where
  marker : NodeId
  loop : LoopDefinition
  /-- The scope in which the array of the loop is evaluated. -/
  scope : Scope
  /-- The document when the first of the loops shown together with this one had its turn. -/
  start : Document

/-- The items of the array of a loop at its turn, or `none` if its value is no array. -/
def Turn.items? (o : ViewOptions) (t : Turn) : Option (List Value) :=
  (valueOf o.namesItems t.scope t.loop.array.toList).items?

/-- What happens in a pass. -/
inductive Event where
  | operation (op : Operation)
  /-- A group has had its turn. -/
  | group (marker : NodeId)
  /-- A loop has had its turn. -/
  | loop (t : Turn)
  /-- A fragment is left as it was made. -/
  | cut

/-- The operation that an event is. -/
def Event.operation? : Event → Option Operation
  | operation op => some op
  | group _ | loop _ | cut => none

/-- The marker that has had its turn. -/
def Event.marker? : Event → Option NodeId
  | group marker => some marker
  | loop t => some t.marker
  | operation _ | cut => none

/-- The operations among some events. -/
def operations (es : List Event) : List Operation :=
  es.filterMap Event.operation?

/-- What happens when a fragment is made. -/
abbrev Telling := Scope → List Char → View → List Event

/-- What happens when a group is shown after its marker. -/
def groupEvents (build : Build) (tells : Telling) (o : ViewOptions) (scope : Scope) (marker : NodeId)
    (g : ConditionGroup) (v : View) : List Event :=
  let v := { v with document := (v.document.clearOwned marker).2 }
  .operation (.clearOwned marker) ::
    match chosenBlock o scope g with
    | none => [.group marker]
    | some b =>
      if trim b.content.toList = [] then [.group marker]
      else
        tells scope b.content.toList v ++
          [.operation (.insertOwned marker (build scope b.content.toList v).1), .group marker]

/-- What happens when items of a loop are added to a fragment. -/
def itemEvents (build : Build) (tells : Telling) (o : ViewOptions) (scope : Scope)
    (l : LoopDefinition) (target : NodeId) : Nat → List Value → View → List Event
  | _, [], _ => []
  | i, item :: items, v =>
    let (html, records) := v.records.body o.depth l i
    let placed := { v with records }
    let (fragment, v) := build (itemScope scope l i item) html placed
    tells (itemScope scope l i item) html placed ++
      .operation (.appendFragment target fragment) ::
        itemEvents build tells o scope l target (i + 1) items
          { v with document := v.document.appendFragment target fragment }

/-- What happens when a loop over the given items is shown after its marker. -/
def loopEvents (build : Build) (tells : Telling) (o : ViewOptions) (t : Turn) (items : List Value)
    (v : View) : List Event :=
  let (target, document) := (v.document.clearOwned t.marker).2.createFragment []
  .operation (.clearOwned t.marker) :: .operation (.createFragment []) ::
    (itemEvents build tells o t.scope t.loop target 0 items { v with document } ++
      [.operation (.insertOwned t.marker target), .loop t])

/-- What happens at the turn of one comment. -/
def markerEvents (kind : DirectiveKind) (tells : NodeId → String → View → List Event)
    (under : NodeId) (v : View) (n : NodeId × String) : List Event :=
  match Marker.ofComment? n.2 with
  | none => []
  | some m =>
    if m.kind = kind && v.document.isDescendant under n.1 then tells n.1 m.name v else []

/-- What happens at the turns of several comments. -/
def markersEvents (kind : DirectiveKind) (shows : NodeId → String → View → Option View)
    (tells : NodeId → String → View → List Event) (under : NodeId) :
    List (NodeId × String) → View → List Event
  | [], _ => []
  | n :: ns, v =>
    markerEvents kind tells under v n ++
      markersEvents kind shows tells under ns (markerStep kind shows under v n)

/-- What the markers of groups show in a pass. -/
def groupShower (build : Build) (o : ViewOptions) (scope : Scope) (up : Update) (id : NodeId)
    (name : String) (v : View) : Option View := do
  let g ← v.records.group? name
  if up.meets g.vars then some (v.showGroup build o scope id g) else none

/-- What the markers of loops show in a pass. -/
def loopShower (build : Build) (o : ViewOptions) (scope : Scope) (up : Update) (id : NodeId)
    (name : String) (v : View) : Option View := do
  let l ← v.records.loop? name
  if up.meets l.vars then
    let items ← (valueOf o.namesItems scope l.array.toList).items?
    some (v.showLoop build o scope id l items)
  else none

/-- What happens at the marker of a group. -/
def groupTeller (build : Build) (tells : Telling) (o : ViewOptions) (scope : Scope) (up : Update)
    (id : NodeId) (name : String) (v : View) : List Event :=
  match v.records.group? name with
  | none => []
  | some g => if up.meets g.vars then groupEvents build tells o scope id g v else []

/-- What happens at the marker of a loop. -/
def loopTeller (build : Build) (tells : Telling) (o : ViewOptions) (scope : Scope) (up : Update)
    (start : Document) (id : NodeId) (name : String) (v : View) : List Event :=
  match v.records.loop? name with
  | none => []
  | some l =>
    if up.meets l.vars then
      let t : Turn := { marker := id, loop := l, scope, start }
      match t.items? o with
      | none => [.loop t]
      | some items => loopEvents build tells o t items v
    else []

/-- What happens when the text of an element is shown. -/
def textEvents (o : ViewOptions) (scope : Scope) (up : Update) (d : Document) (id : NodeId) :
    List Event :=
  match d.attribute? id (String.ofList textBinding) with
  | none => []
  | some text =>
    if up.meetsText text.toList then
      [.operation (.setInnerHtml id
        (Interpolation.render (shownValue o.namesItems scope) text.toList))]
    else []

/-- What happens when the texts of several elements are shown. -/
def textsEvents (o : ViewOptions) (scope : Scope) (up : Update) :
    List NodeId → Document → List Event
  | [], _ => []
  | id :: ids, d =>
    textEvents o scope up d id ++
      textsEvents o scope up ids (d.showText o.namesItems scope up id).2

/-- What happens when elements are changed. -/
def elementEvents (f : Element → Element) (ids : List NodeId) : List Event :=
  ids.map fun id => .operation (.updateData id fun data => data.mapElement f)

/-- What happens when a state is shown below a node, in four steps. -/
def showEvents (build : Build) (tells : Telling) (o : ViewOptions) (scope : Scope) (up : Update)
    (under : NodeId) (v : View) : List Event :=
  let v1 := (v.showGroups build o scope up under).2
  let v2 := (v1.showLoops build o scope up under).2
  let d := (v2.document.showTexts o.namesItems scope up under).2
  markersEvents .condition (groupShower build o scope up) (groupTeller build tells o scope up) under
      (v.document.comments under) v ++
    (markersEvents .loop (loopShower build o scope up)
        (loopTeller build tells o scope up v1.document) under (v1.document.comments under) v1 ++
      (textsEvents o scope up (v2.document.elements under) v2.document ++
        elementEvents (newAttributes o scope up) (d.elements under)))

/-- What happens when a fragment is made from markup, before anything in it is shown. -/
def newFragmentEvents (o : ViewOptions) (html : List Char) (v : View) : List Event :=
  let (id, d) := v.document.createFragment html
  .operation (.createFragment html) ::
    if o.completeHandlers then elementEvents Element.completeHandlers (d.elements id) else []

/-- What happens when a fragment is made from markup, with everything in it shown. -/
def buildEvents (o : ViewOptions) : Nat → Telling
  | 0, _, html, v => newFragmentEvents o html v ++ [.cut]
  | fuel + 1, scope, html, v =>
    let (id, w) := v.newFragment o html
    newFragmentEvents o html v ++ showEvents (build o fuel) (buildEvents o fuel) o scope .all id w

/-- What happens in a pass that shows a state below a node. -/
def trace (o : ViewOptions) (scope : Scope) (up : Update) (under : NodeId) (v : View) : List Event :=
  if up.isEmpty then []
  else
    showEvents (build o (v.records.size + 1 + o.depth)) (buildEvents o (v.records.size + 1 + o.depth))
      o scope up under v

/-! ## Events and operations -/

@[simp] theorem operations_nil : operations [] = [] := rfl

@[simp] theorem operations_operation (op : Operation) (es : List Event) :
    operations (.operation op :: es) = op :: operations es := rfl

@[simp] theorem operations_group (marker : NodeId) (es : List Event) :
    operations (.group marker :: es) = operations es := rfl

@[simp] theorem operations_loop (t : Turn) (es : List Event) :
    operations (.loop t :: es) = operations es := rfl

@[simp] theorem operations_cut (es : List Event) : operations (.cut :: es) = operations es := rfl

@[simp] theorem operations_append (es es' : List Event) :
    operations (es ++ es') = operations es ++ operations es' :=
  List.filterMap_append

@[simp] theorem operations_elementEvents (f : Element → Element) (ids : List NodeId) :
    operations (elementEvents f ids) =
      ids.map fun id => .updateData id fun data => data.mapElement f := by
  rw [operations, elementEvents, List.filterMap_map]
  exact congrFun List.filterMap_eq_map ids

end View

end LiveMarkup
