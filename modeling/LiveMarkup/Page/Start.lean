import LiveMarkup.Handler.Attribute
import LiveMarkup.Handler.Registry

/-!
# Starting a page

A document is started once: the modules that its scripts name are loaded and their exports
installed, its event attributes are completed, and an attribute marks it as started.  A module that
cannot be loaded is passed over.
-/

namespace LiveMarkup

/-- Why a module could not be loaded. -/
inductive LoadError where
  | notFound (source : String)
  | unreadable (source reason : String)
  deriving DecidableEq

/-- An error in words. -/
def LoadError.message : LoadError → String
  | notFound source => s!"Module not found: {source}"
  | unreadable source reason => s!"Failed to read module {source}: {reason}"

/-- How modules are found by their sources. -/
abbrev Loader := String → Except LoadError Exports

namespace Loader

/-- The loader of given modules. -/
def ofModules (modules : List (String × Exports)) : Loader := fun source =>
  match modules.lookup source with
  | some m => .ok m
  | none => .error (.notFound source)

/-- The loader that finds nothing. -/
def nothing : Loader := ofModules []

/-- The exports of the modules that can be loaded, in order. -/
def loadAll (load : Loader) (sources : List String) : List Exports :=
  sources.filterMap fun s => (load s).toOption

end Loader

/-- The attribute that marks a started document. -/
def startedMark : String := "pado-init"

/-- The source of the module that an element names: a script of the type `module`. -/
def Element.moduleSource? (e : Element) : Option String :=
  if e.tag = "script" && e.attribute? "type" = some "module" then
    (e.attribute? "src").filter (· ≠ "")
  else none

namespace Document

/-- Whether a document was started. -/
def isStarted (d : Document) : Bool :=
  (d.findAttribute? root startedMark).isSome

/-- The sources of the modules that a document names, in order. -/
def moduleSources (d : Document) : List String :=
  (d.elements root).filterMap fun id => (d.element? id).bind Element.moduleSource?

/-- The element that is marked: the body, or else the first one. -/
def markedElement? (d : Document) : Option NodeId :=
  (d.findTag? root "body").or (d.elements root).head?

/-- A document marked as started. -/
def markStarted (d : Document) : Document :=
  match d.markedElement? with
  | some id => d.updateElement id fun e => e.setAttribute startedMark ""
  | none => d

/-- A document with its event attributes completed and marked as started. -/
def start (d : Document) : Document :=
  (d.completeHandlers root).markStarted

end Document

end LiveMarkup
