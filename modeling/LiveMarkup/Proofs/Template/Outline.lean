import Mathlib.Data.List.Basic
import LiveMarkup.Template.Compile

/-!
# Templates as trees of directives

A template is text with directives in it, and the blocks of a directive are templates again.  From
such a tree follow its source (`Outline.source`), and what has to become of it: the text with markers
in it, the groups and loops, and the names that are used up.

Names are given in the order in which directives open, and records are listed in the order in which
directives close.
-/

namespace LiveMarkup

open Text

mutual

/-- Text with directives in it. -/
inductive Outline where
  | text (cs : List Char)
  | directive (cs : List Char) (d : Directive) (rest : Outline)

/-- A directive with its blocks. -/
inductive Directive where
  | group (test : List Char) (body : Outline) (more : Branches)
  | loop (array item : List Char) (body : Outline)

/-- The branches after the first block of a group; nothing follows the one without a condition. -/
inductive Branches where
  | done
  | otherwise (body : Outline)
  | elseIf (test : List Char) (body : Outline) (more : Branches)

end

/-! ## Source -/

/-- The header of a branch with a condition, with blanks before the parenthesis. -/
def testHeader (gap test : List Char) : List Char :=
  gap ++ '(' :: (test ++ [')', '\x7d'])

/-- The header of a loop. -/
def loopHeader (array item : List Char) : List Char :=
  ' ' :: (array ++ (" as ".toList ++ item))

mutual

/-- The source of a template. -/
def Outline.source (gap : List Char) : Outline → List Char
  | .text cs => cs
  | .directive cs d rest => cs ++ (d.source gap ++ rest.source gap)

/-- The source of a directive. -/
def Directive.source (gap : List Char) : Directive → List Char
  | .group test body more => DirectiveKind.condition.opener ++ (testHeader gap test ++
      (body.source gap ++ more.source gap ++ DirectiveKind.condition.closer))
  | .loop array item body => DirectiveKind.loop.opener ++ (loopHeader array item ++ ['\x7d'] ++
      (body.source gap ++ DirectiveKind.loop.closer))

/-- The source of branches. -/
def Branches.source (gap : List Char) : Branches → List Char
  | .done => []
  | .otherwise body => branchOpener ++ '\x7d' :: body.source gap
  | .elseIf test body more => branchOpener ++ 'i' :: 'f' ::
      (testHeader gap test ++ (body.source gap ++ more.source gap))

end

/-! ## What has to become of it -/

/-- The kind of a directive. -/
def Directive.kind : Directive → DirectiveKind
  | .group .. => .condition
  | .loop .. => .loop

mutual

/-- The names that are left after a template. -/
def Outline.namesAfter (names : Names) : Outline → Names
  | .text _ => names
  | .directive _ d rest => rest.namesAfter (d.namesAfter names)

/-- The names that are left after a directive, which takes one before its blocks take theirs. -/
def Directive.namesAfter (names : Names) : Directive → Names
  | .group _ body more => more.namesAfter (body.namesAfter (names.next .condition).2)
  | .loop _ _ body => body.namesAfter (names.next .loop).2

/-- The names that are left after branches. -/
def Branches.namesAfter (names : Names) : Branches → Names
  | .done => names
  | .otherwise body => body.namesAfter names
  | .elseIf _ body more => more.namesAfter (body.namesAfter names)

end

/-- The text of a template, with a marker in the place of each directive. -/
def Outline.skeleton (names : Names) : Outline → List Char
  | .text cs => cs
  | .directive cs d rest =>
    cs ++ ((Marker.mk d.kind (names.next d.kind).1).markup ++ rest.skeleton (d.namesAfter names))

/-- A block of a group. -/
def Outline.block (names : Names) (kind : BlockKind) (test : Option (List Char)) (body : Outline) :
    Block :=
  ⟨kind, test.map String.ofList, blockContent (body.skeleton names)⟩

/-- The blocks of branches. -/
def Branches.blocks (names : Names) : Branches → List Block
  | .done => []
  | .otherwise body => [body.block names .otherwise none]
  | .elseIf test body more =>
    body.block names .elseIf (some test) :: more.blocks (body.namesAfter names)

mutual

/-- The groups in a template, each after those in its blocks. -/
def Outline.groups (names : Names) : Outline → List ConditionGroup
  | .text _ => []
  | .directive _ d rest => d.groups names ++ rest.groups (d.namesAfter names)

/-- The groups in a directive, and then the one that it is. -/
def Directive.groups (names : Names) : Directive → List ConditionGroup
  | .group test body more =>
    let inner := (names.next .condition).2
    body.groups inner ++ more.groups (body.namesAfter inner) ++
      [⟨(names.next .condition).1,
        body.block inner .first (some test) :: more.blocks (body.namesAfter inner)⟩]
  | .loop _ _ body => body.groups (names.next .loop).2

/-- The groups in branches. -/
def Branches.groups (names : Names) : Branches → List ConditionGroup
  | .done => []
  | .otherwise body => body.groups names
  | .elseIf _ body more => body.groups names ++ more.groups (body.namesAfter names)

end

mutual

/-- The loops in a template, each after those in its body. -/
def Outline.loops (names : Names) : Outline → List LoopDefinition
  | .text _ => []
  | .directive _ d rest => d.loops names ++ rest.loops (d.namesAfter names)

/-- The loops in a directive, and then the one that it is. -/
def Directive.loops (names : Names) : Directive → List LoopDefinition
  | .group _ body more =>
    let inner := (names.next .condition).2
    body.loops inner ++ more.loops (body.namesAfter inner)
  | .loop array item body =>
    let inner := (names.next .loop).2
    body.loops inner ++ [⟨(names.next .loop).1, String.ofList array, String.ofList item,
      blockContent (body.skeleton inner)⟩]

/-- The loops in branches. -/
def Branches.loops (names : Names) : Branches → List LoopDefinition
  | .done => []
  | .otherwise body => body.loops names
  | .elseIf _ body more => body.loops names ++ more.loops (body.namesAfter names)

end

/-! ## Well-formed trees -/

/-- What begins a directive, a branch or the end of a directive. -/
def directiveMarks : List (List Char) :=
  [DirectiveKind.condition.opener, DirectiveKind.loop.opener, branchOpener,
    DirectiveKind.condition.closer, DirectiveKind.loop.closer]

/-- A text holds nothing that begins or ends a directive or a branch. -/
def IsBare (cs : List Char) : Prop :=
  ∀ m ∈ directiveMarks, ¬ m <:+: cs

/-- Parentheses are properly nested. -/
inductive Nests : List Char → Prop
  | nil : Nests []
  | char {c cs} : c ≠ '(' → c ≠ ')' → Nests cs → Nests (c :: cs)
  | parens {inner rest} : Nests inner → Nests rest → Nests ('(' :: inner ++ ')' :: rest)

/-- A condition as it is written: not empty and without blanks around it, with neither quotes nor
braces, and with its parentheses nested. -/
structure IsTest (test : List Char) : Prop where
  trimmed : trim test = test
  ne_nil : test ≠ []
  free : ∀ c ∈ ['"', '\'', '\x7b', '\x7d'], c ∉ test
  nests : Nests test

/-- An array as it is written: not empty and without blanks around it, in one line, and without
braces. -/
structure IsArray (array : List Char) : Prop where
  trimmed : trim array = array
  ne_nil : array ≠ []
  free : ∀ c ∈ ['\n', '\x7b', '\x7d'], c ∉ array

mutual

/-- All texts, conditions, arrays and items of a template are as they have to be. -/
def Outline.WellFormed : Outline → Prop
  | .text cs => IsBare cs
  | .directive cs d rest => IsBare cs ∧ d.WellFormed ∧ rest.WellFormed

/-- All that is in a directive is as it has to be. -/
def Directive.WellFormed : Directive → Prop
  | .group test body more => IsTest test ∧ body.WellFormed ∧ more.WellFormed
  | .loop array item body => IsArray array ∧ isIdentifier item = true ∧ body.WellFormed

/-- All that is in branches is as it has to be. -/
def Branches.WellFormed : Branches → Prop
  | .done => True
  | .otherwise body => body.WellFormed
  | .elseIf test body more => IsTest test ∧ body.WellFormed ∧ more.WellFormed

end

end LiveMarkup
