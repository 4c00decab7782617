import LiveMarkup.Expr.Variables

/-!
# Compiled templates

A compiled template is a skeleton of markup with markers in it, the groups of conditions and the
loops that the markers name, and perhaps a stylesheet.
-/

namespace LiveMarkup

/-- How a block of a group comes to be chosen. -/
inductive BlockKind where
  | first
  | elseIf
  | otherwise
  deriving DecidableEq, Inhabited

/-- The word that stands for a kind of blocks. -/
def BlockKind.keyword : BlockKind → String
  | .first => "if"
  | .elseIf => "elseif"
  | .otherwise => "else"

/-- The kind of blocks that a word stands for. -/
def BlockKind.ofKeyword? (word : String) : Option BlockKind :=
  [BlockKind.first, .elseIf, .otherwise].find? fun k => k.keyword = word

/-- A block of a group of conditions. -/
structure Block where
  kind : BlockKind
  condition : Option String
  content : String
  deriving DecidableEq, Inhabited

/-- A group of conditions, of which one block is shown at most. -/
structure ConditionGroup where
  name : String
  blocks : List Block
  deriving DecidableEq, Inhabited

/-- A loop, whose content is shown for every item of an array. -/
structure LoopDefinition where
  name : String
  array : String
  item : String
  content : String
  deriving DecidableEq, Inhabited

/-- A compiled template. -/
structure Template where
  html : String
  conditions : List ConditionGroup
  loops : List LoopDefinition
  styles : Option String := none
  deriving DecidableEq, Inhabited

namespace ConditionGroup

/-- The conditions of a group, in order. -/
def conditions (g : ConditionGroup) : List String :=
  g.blocks.filterMap Block.condition

/-- The names that the conditions of a group may depend on, each once. -/
def vars (g : ConditionGroup) : List String :=
  Text.distinct (g.conditions.flatMap fun c => expressionVars c.toList)

end ConditionGroup

/-- The names that the array of a loop may depend on. -/
def LoopDefinition.vars (l : LoopDefinition) : List String :=
  expressionVars l.array.toList

namespace Template

/-- The first group with a name. -/
def group? (t : Template) (name : String) : Option ConditionGroup :=
  t.conditions.find? fun g => g.name = name

/-- The first loop with a name. -/
def loop? (t : Template) (name : String) : Option LoopDefinition :=
  t.loops.find? fun l => l.name = name

end Template

end LiveMarkup
