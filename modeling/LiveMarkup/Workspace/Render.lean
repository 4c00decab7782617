import LiveMarkup.Page.Basic
import LiveMarkup.Workspace.Compile
import LiveMarkup.Workspace.Module

/-!
# Rendering a template of a workspace

A template, compiled or not, is shown as a page with the state from a file, and the page is printed.
-/

namespace LiveMarkup

/-- What is rendered. -/
structure RenderRequest where
  /-- The file of the template; a compiled one has the extension `json`. -/
  template : String
  /-- The file of the state. -/
  state : Option String := none
  deriving DecidableEq, Inhabited

namespace Host

variable {m : Type → Type} [Monad m]

/-- The template in a file. -/
def readTemplate (h : Host m) (directory : Path) (c : Config) (file : Path) :
    Command m Template := do
  let source ← Command.ofDisk (h.read file) fun _ => .unreadableTemplate file
  if Path.extension? file = some "json".toList then
    Command.ofOption (Template.read? source) (.invalidTemplate file)
  else
    let options : CompileOptions := {
      path := some (String.ofList (templateKey directory file))
      scopeClasses := c.scopeClasses
      checkExpressions := false }
    match compile options source.toList with
    | .error .headerPastEnd => throw .headerPastEnd
    | .ok compiled =>
      for w in compiled.warnings do
        Command.of (h.warn s!"warning: {w.message}")
      return compiled.template

/-- The state in a file. -/
def readState (h : Host m) (file : Path) : Command m (List (String × Value)) := do
  let text ← Command.ofDisk (h.read file) fun _ => .unreadableState file
  match ← Command.ofOption (Json.read? text) .malformedJson with
  | .object members => return snapshotOfJson (.object members)
  | _ => throw (.stateNotObject file)

/-- Renders a template of the workspace in a directory. -/
def render (h : Host m) (directory : Path) (r : RenderRequest) : Command m Unit := do
  let c ← Config.load h directory
  let file := directory.join r.template.toList
  let template ← h.readTemplate directory c file
  let snapshot ← match r.state with
    | some s => h.readState (directory.join s.toList)
    | none => pure []
  let document := Document.parse template.html.toList
  let base := (Path.parent? file).getD directory
  let load ← Command.of (h.loaderFor base document.moduleSources)
  let (_, page) := (Page.ofTemplate template document { namesItems := c.namesItems } load).render snapshot
  Command.of (h.print (String.ofList page.document.toHtml))

end Host

end LiveMarkup
