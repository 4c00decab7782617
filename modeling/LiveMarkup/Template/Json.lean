import LiveMarkup.Json.Decode
import LiveMarkup.Json.Printer
import LiveMarkup.Template.Basic

/-!
# Compiled templates as JSON

A compiled template is stored as a JSON object; what is absent has no member.
-/

namespace LiveMarkup

/-- A member for a value that may be absent. -/
def optionalMember (key : String) (value : Option String) : List (String × Json) :=
  match value with
  | some s => [(key, .string s)]
  | none => []

/-- A block as JSON. -/
def Block.toJson (b : Block) : Json :=
  .object (("type", .string b.kind.keyword) :: optionalMember "condition" b.condition ++
    [("content", .string b.content)])

/-- A group of conditions as JSON. -/
def ConditionGroup.toJson (g : ConditionGroup) : Json :=
  .object [("groupName", .string g.name), ("blocks", .array (g.blocks.map Block.toJson))]

/-- A loop as JSON. -/
def LoopDefinition.toJson (l : LoopDefinition) : Json :=
  .object [("name", .string l.name), ("arrayExpr", .string l.array),
    ("itemName", .string l.item), ("content", .string l.content)]

namespace Template

/-- A template as JSON. -/
def toJson (t : Template) : Json :=
  .object ([("html", .string t.html),
    ("conditions", .array (t.conditions.map ConditionGroup.toJson)),
    ("loops", .array (t.loops.map LoopDefinition.toJson))] ++ optionalMember "styles" t.styles)

/-- The text in which a template is stored. -/
def write (t : Template) : String :=
  t.toJson.pretty

end Template

open Json (Raw)

/-- The block of a JSON value. -/
def Block.ofRaw? (j : Raw) : Option Block := do
  let fields ← j.record? ["type", "condition", "content"]
  return {
    kind := ← BlockKind.ofKeyword? (← (← fields.lookup "type").word?)
    condition := ← Raw.optional? Raw.string? (fields.lookup "condition")
    content := ← (← fields.lookup "content").string? }

/-- The group of conditions of a JSON value. -/
def ConditionGroup.ofRaw? (j : Raw) : Option ConditionGroup := do
  let fields ← j.record? ["groupName", "blocks"]
  return {
    name := ← (← fields.lookup "groupName").string?
    blocks := ← (← (← fields.lookup "blocks").items?).mapM Block.ofRaw? }

/-- The loop of a JSON value. -/
def LoopDefinition.ofRaw? (j : Raw) : Option LoopDefinition := do
  let fields ← j.record? ["name", "arrayExpr", "itemName", "content"]
  return {
    name := ← (← fields.lookup "name").string?
    array := ← (← fields.lookup "arrayExpr").string?
    item := ← (← fields.lookup "itemName").string?
    content := ← (← fields.lookup "content").string? }

/-- The template of a JSON value. -/
def Template.ofRaw? (j : Raw) : Option Template := do
  let fields ← j.record? ["html", "conditions", "loops", "styles"]
  return {
    html := ← (← fields.lookup "html").string?
    conditions := ← (← (← fields.lookup "conditions").items?).mapM ConditionGroup.ofRaw?
    loops := ← (← (← fields.lookup "loops").items?).mapM LoopDefinition.ofRaw?
    styles := ← Raw.optional? Raw.string? (fields.lookup "styles") }

/-- The template stored in a text. -/
def Template.read? (text : String) : Option Template := do
  Template.ofRaw? (← Raw.read? text)

end LiveMarkup
