import LiveMarkup.Workspace.Config

/-!
# Setting up a workspace

A new workspace has a configuration, an example template and its module.  Files that exist are kept,
and a workspace that has a configuration is left alone unless that is overruled.
-/

namespace LiveMarkup

/-- How a workspace is set up. -/
structure InitOptions where
  sourceDirectory : String := "src"
  /-- A configuration that exists is replaced. -/
  force : Bool := false
  deriving DecidableEq, Inhabited

/-- The template of a new workspace. -/
def exampleTemplate : String :=
  "<body>\n" ++
  "  <h1>\x7btitle\x7d</h1>\n" ++
  "  <button onclick=\x7bincrement\x7d>Clicked \x7bcount\x7d times</button>\n" ++
  "  \x7b@if(count > 10)\x7d\n" ++
  "    <p>That's a lot of clicks</p>\n" ++
  "  \x7b/if\x7d\n" ++
  "  <script type=\"module\" src=\"./page.js\"></script>\n" ++
  "</body>\n"

/-- The module of the template. -/
def exampleModule : String := "export function increment() \x7b\x7d\n"

/-- The files of a new workspace with their texts. -/
def exampleFiles : List (String × String) :=
  [("page.pado", exampleTemplate), ("page.js", exampleModule)]

namespace Host

variable {m : Type → Type} [Monad m]

/-- Writes a file unless there is one. -/
def writeNew (h : Host m) (directory : Path) (sourceDirectory : String) (name text : String) :
    Command m Unit := do
  let file := directory.join name.toList
  unless ← Command.of (h.has file) do
    Command.ofDisk (h.write file text) .disk
    Command.of (h.print s!"  ✓ Created {sourceDirectory}/app/{name}")

/-- Sets up a workspace in a directory. -/
def init (h : Host m) (directory : Path) (o : InitOptions) : Command m Unit := do
  let file := Config.filePath directory
  if (← Command.of (h.has file)) && !o.force then
    Command.of (h.print s!"! {Config.fileName} already exists")
    Command.of (h.print "Use --force to overwrite")
  else
    Command.of (h.print "Initializing Pado project...")
    let app := (directory.join o.sourceDirectory.toList).join "app".toList
    unless ← Command.of (h.has app) do
      Command.ofDisk (h.makeDirectories app) .disk
      Command.of (h.print s!"  ✓ Created {o.sourceDirectory}/app/")
    for (name, text) in exampleFiles do
      h.writeNew app o.sourceDirectory name text
    let config : Config := { sourceDirectory := o.sourceDirectory }
    Command.ofDisk (h.write file config.toJson.pretty) .disk
    Command.of (h.print s!"  ✓ Created {Config.fileName}")
    Command.of (h.print "")
    Command.of (h.print "Next: pado compile")

end Host

end LiveMarkup
