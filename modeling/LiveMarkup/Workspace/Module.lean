import LiveMarkup.Handler.ModuleText
import LiveMarkup.Page.Start
import LiveMarkup.Workspace.Command

/-!
# Modules on a host

The modules of a page are files below a directory.  They are not run: each name that a module
exports becomes a handler that does nothing.
-/

namespace LiveMarkup

/-- The exports of the module with a given text. -/
def Exports.ofModuleText (text : String) : Exports :=
  .ofList ((exportedNames text.toList).map fun name => (name, .function fun _ => .undefined))

namespace Host

variable {m : Type → Type} [Monad m]

/-- The path of a module with a given source; slashes at its start do not count. -/
def modulePath (base : Path) (source : String) : Path :=
  base.join (source.toList.dropWhile (· = '/'))

/-- The exports of a module below a directory. -/
def loadModule (h : Host m) (base : Path) (source : String) : m (Except LoadError Exports) := do
  let path := modulePath base source
  if ← h.hasFile path then
    match ← h.read path with
    | .ok text => return .ok (.ofModuleText text)
    | .error e => return .error (.unreadable source e.message)
  else return .error (.notFound source)

/-- A loader for the modules with given sources. -/
def loaderFor (h : Host m) (base : Path) (sources : List String) : m Loader := do
  let modules ← sources.mapM fun s => return (s, ← h.loadModule base s)
  return fun source => (modules.lookup source).getD (.error (.notFound source))

end Host

end LiveMarkup
