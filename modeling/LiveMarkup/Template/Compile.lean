import LiveMarkup.Template.Binding
import LiveMarkup.Template.Check
import LiveMarkup.Template.Directive
import LiveMarkup.Template.Names
import LiveMarkup.Template.ScopedClass

/-!
# Compiling templates

The directives of a template are taken out from the inside: the body of a directive is compiled
before the directive itself, and a marker takes its place.  A directive that has no end, or whose
header cannot be read, stays as text with a warning.

A compilation stops in one case alone: the header of a condition, which is read with its strings,
ends only after the closer that was found for the directive, so there is no body.
-/

namespace LiveMarkup

open Text

/-- What stops a compilation. -/
inductive CompileError where
  /-- The header of a condition ends after the closer of its directive. -/
  | headerPastEnd
  deriving DecidableEq

/-- What a compilation has found so far. -/
structure Findings where
  names : Names
  conditions : List ConditionGroup := []
  loops : List LoopDefinition := []
  warnings : List Warning := []

namespace Findings

/-- Findings with a warning more. -/
def warn (f : Findings) (w : Warning) : Findings :=
  { f with warnings := f.warnings ++ [w] }

/-- The next name for a kind of directives. -/
def nextName (f : Findings) (kind : DirectiveKind) : String × Findings :=
  let (name, names) := f.names.next kind
  (name, { f with names })

end Findings

/-- The content of a block or a loop: its text without the blanks around it, with its expressions
bound. -/
def blockContent (cs : List Char) : String :=
  String.ofList (bindMarkup (trim cs))

/-- The blocks of a group, from one with a given kind and condition on.  `segment` is the text of
that block so far, and `pos` the byte at which the rest starts.  Each round passes over a branch. -/
def blocksFrom (group : String) : Nat → BlockKind → Option String → List Char → Nat → List Char →
    List Block × List Warning
  | 0, kind, condition, segment, _, cs => ([⟨kind, condition, blockContent (segment ++ cs)⟩], [])
  | fuel + 1, kind, condition, segment, pos, cs =>
    match findBranch? cs with
    | none => ([⟨kind, condition, blockContent (segment ++ cs)⟩], [])
    | some (before, .otherwise, rest) =>
      ([⟨kind, condition, blockContent (segment ++ before)⟩, ⟨.otherwise, none, blockContent rest⟩],
        match findBranch? rest with
        | some (_, branch, _) => [.branchAfterElse branch group]
        | none => [])
    | some (before, .elseIf, rest) =>
      let opener := branchOpener ++ ['i', 'f']
      let pos := pos + byteLength before
      match conditionHeader? rest with
      | some (next, header, rest) =>
        let pos := pos + byteLength opener + byteLength header
        let (blocks, warnings) :=
          blocksFrom group fuel .elseIf (some (String.ofList next)) [] pos rest
        (⟨kind, condition, blockContent (segment ++ before)⟩ :: blocks, warnings)
      | none =>
        let warning := Warning.malformedBranch (firstLine (opener ++ rest)) pos
        let (blocks, warnings) := blocksFrom group fuel kind condition (segment ++ before ++ opener)
          (pos + byteLength opener) rest
        (blocks, warning :: warnings)

/-- The blocks of a group of conditions with a given body. -/
def blocks (group : String) (condition body : List Char) : List Block × List Warning :=
  blocksFrom group (body.length + 1) .first (some (String.ofList condition)) [] 0 body

/-- A directive whose header and end have been found. -/
inductive Opened where
  | condition (test body : List Char)
  | loop (array item body : List Char)

/-- The directive of a kind after its opener: what it says, and the text after its closer; or a
warning. -/
def openDirective (kind : DirectiveKind) (pos : Nat) (cs : List Char) :
    Except CompileError (Except Warning (Opened × List Char)) :=
  match scanBlock kind 1 cs with
  | none => .ok (.error (.unmatched kind pos))
  | some (inside, rest) =>
    let malformed := Warning.malformed kind (firstLine (kind.opener ++ inside)) pos
    match kind with
    | .condition =>
      match conditionHeader? cs with
      | none => .ok (.error malformed)
      | some (test, header, _) =>
        match after? header inside with
        | some body => .ok (.ok (.condition test body, rest))
        | none => .error .headerPastEnd
    | .loop =>
      match inside.dropWhile (· ≠ '\x7d') with
      | [] => .ok (.error malformed)
      | _ :: body =>
        match loopHeader? (inside.takeWhile (· ≠ '\x7d')) with
        | none => .ok (.error malformed)
        | some (array, item) => .ok (.ok (.loop array item body, rest))

/-- A text that starts at a given byte, with its directives replaced by markers, and what was found.
Each round passes over a directive or a character. -/
def compileFrom : Nat → Nat → List Char → Findings → Except CompileError (List Char × Findings)
  | 0, _, cs, f => .ok (cs, f)
  | _ + 1, _, [], f => .ok ([], f)
  | fuel + 1, pos, c :: cs, f =>
    match directive? (c :: cs) with
    | none => do
      let (out, f) ← compileFrom fuel (pos + c.utf8Size) cs f
      return (c :: out, f)
    | some (kind, afterOpener) => do
      match ← openDirective kind pos afterOpener with
      | .error w =>
        let (out, f) ← compileFrom fuel (pos + c.utf8Size) cs (f.warn w)
        return (c :: out, f)
      | .ok (opened, rest) =>
        let (name, f) := f.nextName kind
        let f ← match opened with
          | .condition test body => do
            let (body, f) ← compileFrom fuel 0 body f
            let (blocks, warnings) := blocks name test body
            pure { f with
              conditions := f.conditions ++ [⟨name, blocks⟩]
              warnings := f.warnings ++ warnings }
          | .loop array item body => do
            let (body, f) ← compileFrom fuel 0 body f
            pure { f with loops := f.loops ++
              [⟨name, String.ofList array, String.ofList item, blockContent body⟩] }
        let stop := pos + byteLength (c :: cs) - byteLength rest
        let (out, f) ← compileFrom fuel stop rest f
        return ((Marker.mk kind name).markup ++ out, f)

/-- How a template is compiled. -/
structure CompileOptions where
  /-- The path of the template, which seeds its names and its scope. -/
  path : Option String := none
  scopeClasses : Bool := true
  /-- Whether every expression is read, and those that cannot be read are reported. -/
  checkExpressions : Bool := false

/-- The compiled form of a template, and what is wrong with the template. -/
structure Compiled where
  template : Template
  warnings : List Warning

/-- A template with its classes scoped, if that is wanted and it has a path. -/
def CompileOptions.applyScope (o : CompileOptions) (t : Template) : Template :=
  match o.path with
  | some p => if o.scopeClasses then t.scopeClasses (scopeId p.toList) else t
  | none => t

theorem CompileOptions.applyScope_cases (o : CompileOptions) (t : Template) :
    o.applyScope t = t ∨ ∃ path : String, o.applyScope t = t.scopeClasses (scopeId path.toList) := by
  unfold applyScope
  split
  · split
    · exact .inr ⟨_, rfl⟩
    · exact .inl rfl
  · exact .inl rfl

/-- The compiled form of a template. -/
def compile (o : CompileOptions) (source : List Char) : Except CompileError Compiled := do
  let (skeleton, f) ← compileFrom (source.length + 1) 0 source { names := .ofPath o.path }
  let template := o.applyScope {
    html := String.ofList (bindMarkup skeleton)
    conditions := f.conditions
    loops := f.loops }
  let checked := if o.checkExpressions then template.check else []
  return ⟨template, f.warnings ++ checked⟩

end LiveMarkup
