import LiveMarkup.Keyed
import LiveMarkup.Markup.Parse
import LiveMarkup.Page.Placement
import LiveMarkup.Template.Marker

/-!
# Records of groups and loops

A template has one record for each of its groups of conditions and loops, but a document shows what
stands in the content of a loop once for each item.  Placing the content at an item (`Records.body`)
renames the markers in it and adds a record for each of them, in which the names of the loop are
replaced.  An update can then find what a marker shows without looking at the loops around it.
-/

namespace LiveMarkup

mutual

/-- A tree after a visit of all its nodes in document order, each before its children. -/
def Tree.visit {σ : Type} (f : NodeData → σ → NodeData × σ) : Tree → σ → Tree × σ
  | .node data ts, s =>
    let (data, s) := f data s
    let (ts, s) := Tree.visitAll f ts s
    (.node data ts, s)

/-- Trees after a visit, one after the other. -/
def Tree.visitAll {σ : Type} (f : NodeData → σ → NodeData × σ) : List Tree → σ → List Tree × σ
  | [], s => ([], s)
  | t :: ts, s =>
    let (t, s) := Tree.visit f t s
    let (ts, s) := Tree.visitAll f ts s
    (t :: ts, s)

end

/-- The groups and loops that markers may name, and the contents of loops as placed so far, all by
name. -/
structure Records where
  groups : List (String × ConditionGroup) := []
  loops : List (String × LoopDefinition) := []
  bodies : List (String × List Char) := []
  deriving Inhabited

namespace Records

/-- The records with a group more. -/
def addGroup (r : Records) (g : ConditionGroup) : Records :=
  { r with groups := insertByKey g.name g r.groups }

/-- The records with a loop more. -/
def addLoop (r : Records) (l : LoopDefinition) : Records :=
  { r with loops := insertByKey l.name l r.loops }

/-- The group with a name. -/
def group? (r : Records) (name : String) : Option ConditionGroup :=
  r.groups.lookup name

/-- The loop with a name. -/
def loop? (r : Records) (name : String) : Option LoopDefinition :=
  r.loops.lookup name

/-- The number of groups and loops. -/
def size (r : Records) : Nat :=
  r.groups.length + r.loops.length

/-- The records of a template; of equal names the last counts. -/
def ofTemplate (t : Template) : Records :=
  t.loops.foldl addLoop (t.conditions.foldl addGroup {})

/-- How a marker is renamed at a placement, and the records after that. -/
abbrev Renaming := Placement → Marker → Records → String × Records

/-- What a node becomes at a placement. -/
def placeNode (rename : Renaming) (p : Placement) (data : NodeData) (r : Records) :
    NodeData × Records :=
  match data with
  | .element e =>
    let attributes := e.attributes.map fun (name, value) => (name, p.attributeValue name value)
    (.element { e with attributes }, r)
  | .comment s =>
    match Marker.ofComment? s with
    | none => (data, r)
    | some m =>
      let (name, r) := rename p m r
      (.comment (" " ++ { m with name }.text ++ " "), r)
  | _ => (data, r)

/-- Markup at a placement. -/
def placeMarkup (rename : Renaming) (p : Placement) (html : List Char) (r : Records) :
    List Char × Records :=
  let (ts, r) := Tree.visitAll (placeNode rename p) (Tree.parse html) r
  (Tree.renderAll ts, r)

/-- The blocks of a group at a placement. -/
def placeBlocks (rename : Renaming) (p : Placement) : List Block → Records → List Block × Records
  | [], r => ([], r)
  | b :: bs, r =>
    let (content, r) := placeMarkup rename p b.content.toList r
    let (bs, r) := placeBlocks rename p bs r
    let condition := b.condition.map p.expression
    ({ b with condition, content := String.ofList content } :: bs, r)

/-- The name of a marker at a placement.  The first time the record for it is added; a marker
without a record keeps its name.  The fuel bounds how deep directives are nested. -/
def placeMarker : Nat → Renaming
  | 0, _, m, r => (m.name, r)
  | fuel + 1, p, m, r =>
    let name := p.nameAt m.name
    match m.kind with
    | .condition =>
      if (r.group? name).isSome then (name, r)
      else
        match r.group? m.name with
        | none => (m.name, r)
        | some g =>
          let (blocks, r) := placeBlocks (placeMarker fuel) p g.blocks r
          (name, r.addGroup { name, blocks })
    | .loop =>
      if (r.loop? name).isSome then (name, r)
      else
        match r.loop? m.name with
        | none => (m.name, r)
        | some l =>
          let (content, r) := match p.inside? l with
            | some p => placeMarkup (placeMarker fuel) p l.content.toList r
            | none => (l.content.toList, r)
          let array := p.expression l.array
          (name, r.addLoop { l with name, array, content := String.ofList content })

/-- The content of a loop at the item with a given position.  It is placed once and then kept.
Directives may be nested deeper than there are groups and loops by the given depth. -/
def body (depth : Nat) (r : Records) (l : LoopDefinition) (i : Nat) : List Char × Records :=
  let p := Placement.ofLoop l i
  match r.bodies.lookup p.place with
  | some html => (html, r)
  | none =>
    let (html, r) := placeMarkup (placeMarker (r.size + depth)) p l.content.toList r
    (html, { r with bodies := insertByKey p.place html r.bodies })

end Records

end LiveMarkup
