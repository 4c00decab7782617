import LiveMarkup.Page.Start
import LiveMarkup.Page.View
import LiveMarkup.Value.Json

/-!
# Pages

A page is a view with the state that it shows and the handlers that its events call.  The first
state is shown in full, and starts the document if need be (`Page.render`).  Each later one is
merged into the state, and only what depends on its names is shown anew (`Page.update`).
-/

namespace LiveMarkup

/-- A page. -/
structure Page where
  view : View
  options : ViewOptions := {}
  load : Loader := .nothing
  handlers : Exports := []
  state : Bindings := []
  /-- Whether a state has been shown. -/
  isShown : Bool := false

namespace Page

/-- The page of a template in a document. -/
def ofTemplate (t : Template) (document : Document) (options : ViewOptions := {})
    (load : Loader := .nothing) : Page :=
  { view := .ofTemplate t document, options, load }

/-- The document of a page. -/
def document (p : Page) : Document :=
  p.view.document

/-- A page with its document changed. -/
def updateDocument (p : Page) (f : Document → Document) : Page :=
  { p with view := { p.view with document := f p.view.document } }

/-- The scope in which the expressions of a page are evaluated. -/
def scope (p : Page) : Scope :=
  ⟨p.state, []⟩

/-- A page with the exports of a module installed. -/
def install (p : Page) (module : Exports) : Page :=
  { p with handlers := p.handlers.install module }

/-- A page with its modules installed and its document started. -/
def start (p : Page) : Page :=
  let modules := p.load.loadAll p.document.moduleSources
  (modules.foldl install p).updateDocument Document.start

/-- A page with a snapshot merged into its state. -/
def merge (p : Page) (snapshot : List (String × Value)) : Page :=
  { p with state := p.state.merge snapshot }

/-- A page with its state shown. -/
def showState (p : Page) (u : Update) : ViewStats × Page :=
  let (stats, view) := p.view.render p.options p.scope u
  (stats, { p with view, isShown := true })

/-- A page with a snapshot shown.  The first one is shown in full, but starts nothing. -/
def update (p : Page) (snapshot : List (String × Value)) : ViewStats × Page :=
  (p.merge snapshot).showState (if p.isShown then .keys (snapshot.map (·.1)) else .all)

/-- A page with a snapshot shown.  The first one starts the document, if that was not done, and is
shown in full. -/
def render (p : Page) (snapshot : List (String × Value)) : ViewStats × Page :=
  if p.isShown then p.update snapshot
  else
    let p := if p.document.isStarted then p else p.start
    let p := { p with options := p.options.completing }
    (p.merge snapshot).showState .all

/-- The result of the handler for an event of a node. -/
def dispatch (p : Page) (id : NodeId) (event : String) : Except DispatchError Value :=
  match p.document.attribute? id ("on" ++ event) with
  | none => .error (.noHandler event)
  | some call => p.handlers.dispatch p.options.namesItems p.scope call

end Page

/-- The snapshot that a JSON object describes; anything else is an empty one. -/
def snapshotOfJson : Json → List (String × Value)
  | .object members => members.map fun (name, j) => (name, Value.ofJson j)
  | _ => []

end LiveMarkup
