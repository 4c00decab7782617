import LiveMarkup.Template.Compile
import LiveMarkup.Template.Json
import LiveMarkup.Workspace.Config

/-!
# Compiling a workspace

All templates below a directory are compiled, in the order of their paths, and each is stored under
its own path in another directory.  A template that cannot be read or stored is reported and passed
over.
-/

namespace LiveMarkup

/-- What is compiled and where it goes. -/
structure CompileRequest where
  /-- A file or a directory; the configured directory if absent. -/
  path : Option String := none
  /-- Templates are printed instead of stored. -/
  toOutput : Bool := false
  /-- Another directory for the compiled templates than the configured one. -/
  outputDirectory : Option String := none
  /-- Every expression is checked. -/
  checkExpressions : Bool := false
  deriving DecidableEq, Inhabited

/-- The extension of templates. -/
def templateExtension : List Char := "pado".toList

/-- The extensions of the stylesheets that may stand beside a template. -/
def stylesheetExtensions : List (List Char) := ["module.scss".toList, "module.css".toList]

/-- The key of a template, on which the names in it depend: its path in the workspace, with slashes
only. -/
def templateKey (directory file : Path) : List Char :=
  ((Path.stripBase? directory file).getD file).map fun c => if c = '\\' then '/' else c

/-- A path as it is shown from a directory. -/
def Path.shownFrom (directory p : Path) : String :=
  String.ofList ((Path.stripBase? directory p).getD p)

namespace Host

variable {m : Type → Type} [Monad m]

/-- The text of the first stylesheet beside a template. -/
def stylesheet? (h : Host m) (file : Path) : Command m (Option String) := do
  for extension in stylesheetExtensions do
    let candidate := Path.withExtension file extension
    if ← Command.of (h.hasFile candidate) then
      return some (← Command.ofDisk (h.read candidate) .disk)
  return none

/-- The compiled template of a file. -/
def compileFile (h : Host m) (directory : Path) (c : Config) (checkExpressions : Bool)
    (file : Path) : Command m Compiled := do
  let source ← Command.ofDisk (h.read file) .disk
  let key := templateKey directory file
  let options : CompileOptions := {
    path := some (String.ofList key)
    scopeClasses := c.scopeClasses
    checkExpressions }
  match compile options source.toList with
  | .error .headerPastEnd => throw .headerPastEnd
  | .ok compiled =>
    let css ← if c.scopeClasses then h.stylesheet? file else pure none
    match css with
    | none => return compiled
    | some css =>
      let styles := String.ofList (scopeStylesheet (scopeId key) css.toList)
      return { compiled with template := { compiled.template with styles := some styles } }

/-- Stores a compiled template and tells where. -/
def store (h : Host m) (directory output base file : Path) (t : Template) : Command m String := do
  let relative := (Path.stripBase? base file).getD file
  let target := Path.withExtension (output.join relative) "json".toList
  if let some parent := Path.parent? target then
    Command.ofDisk (h.makeDirectories parent) .disk
  Command.ofDisk (h.write target t.write) .disk
  return Path.shownFrom directory target

/-- Compiles one file and stores or prints the result. -/
def compileOne (h : Host m) (directory : Path) (c : Config) (r : CompileRequest)
    (base file : Path) : Command m Unit := do
  let compiled ← h.compileFile directory c r.checkExpressions file
  if r.toOutput then Command.of (h.print compiled.template.write)
  else
    let output := match r.outputDirectory with
      | some d => directory.join d.toList
      | none => c.outputPath directory
    let stored ← h.store directory output base file compiled.template
    Command.of (h.print s!"  ✓ {Path.shownFrom base file} → {stored}")
  for w in compiled.warnings do
    Command.of (h.warn s!"    warning: {w.message}")

/-- The templates to compile, and the directory from which they are shown. -/
def templatesAt (h : Host m) (directory p : Path) : Command m (List Path × Path) := do
  match ← Command.of (h.kind? p) with
  | none => throw (.missingSource p)
  | some .file => return ([p], (Path.parent? p).getD directory)
  | some .directory =>
    let all ← Command.of (h.below p)
    return (Path.sort (all.filter fun q => Path.extension? q = some templateExtension), p)

/-- Compiles files one after the other, reports those that fail, and tells how many did not. -/
def compileAll (h : Host m) (directory : Path) (c : Config) (r : CompileRequest) (base : Path) :
    List Path → Command m (Nat × Nat)
  | [] => return (0, 0)
  | file :: files => do
    let outcome ← Command.attempt (h.compileOne directory c r base file)
    match outcome with
    | none => pure ()
    | some e => Command.of (h.warn s!"  ✗ {Path.shownFrom base file} - {e.message}")
    let (compiled, failed) ← h.compileAll directory c r base files
    return if outcome.isNone then (compiled + 1, failed) else (compiled, failed + 1)

/-- Compiles the templates of the workspace in a directory. -/
def compileWorkspace (h : Host m) (directory : Path) (r : CompileRequest) : Command m Unit := do
  let c ← Config.load h directory
  let (files, base) ← h.templatesAt directory (match r.path with
    | some p => directory.join p.toList
    | none => c.sourcePath directory)
  unless r.toOutput do
    Command.of (h.print "Compiling Pado templates...")
  if files = [] then Command.of (h.print "No .pado files found")
  else
    let (compiled, failed) ← h.compileAll directory c r base files
    unless r.toOutput do
      Command.of (h.print "")
      if failed = 0 then Command.of (h.print s!"✓ Compiled {compiled} files successfully")
      else Command.of (h.print s!"! Compiled {compiled} files, {failed} errors")

end Host

end LiveMarkup
