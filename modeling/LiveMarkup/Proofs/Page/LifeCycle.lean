import LiveMarkup.Proofs.Page.Displays
import LiveMarkup.Proofs.Page.Mark
import LiveMarkup.Proofs.Page.Vetting

/-!
# The life cycle of a page

A page whose first call is to render is started by it, and what that brings about stays whatever is
called afterwards (`Page.performAll_started`): the document is marked, the exports of its modules are
installed, and each event attribute is the completed one of an element that the document or the
template holds, in all content that comes later too.  Call by call the invariant is `Page.Running`.

A page whose first call is to update is never started: a later call to render does as an update does,
since a state has been shown (`Page.performAll_update_first`).
-/

namespace LiveMarkup

open Relation Document Text

/-! ## What a template holds -/

namespace Template

mutual

/-- The contents that a template shows: those of its blocks and loops, and these at the placements
that its loops make. -/
inductive HasContent (t : Template) : List Char → Prop where
  | block {g : ConditionGroup} {b : Block} (hg : g ∈ t.conditions) (hb : b ∈ g.blocks) :
    HasContent t b.content.toList
  | loop {l : LoopDefinition} (hl : HasLoop t l) : HasContent t l.content.toList
  | placed {p : Placement} {html : List Char} (fuel : Nat) (r : Records) (hp : HasPlacement t p)
    (h : HasContent t html) :
    HasContent t (Records.placeMarkup (Records.placeMarker fuel) p html r).1

/-- The loops of a template, and these at the placements of the loops around them. -/
inductive HasLoop (t : Template) : LoopDefinition → Prop where
  | written {l : LoopDefinition} (hl : l ∈ t.loops) : HasLoop t l
  | placed {p : Placement} {l : LoopDefinition} {html : List Char} (hp : HasPlacement t p)
    (hl : HasLoop t l) (h : HasContent t html) : HasLoop t
      { l with
        name := p.nameAt l.name
        array := p.expression l.array
        content := String.ofList html }

/-- The placements that the loops of a template make. -/
inductive HasPlacement (t : Template) : Placement → Prop where
  | item {l : LoopDefinition} (i : Nat) (hl : HasLoop t l) : HasPlacement t (.ofLoop l i)
  | inside {p q : Placement} {l : LoopDefinition} (hp : HasPlacement t p) (hl : HasLoop t l)
    (h : p.inside? l = some q) : HasPlacement t q

end

/-- The contents, loops and placements of a template. -/
def kinds (t : Template) : Kinds :=
  ⟨t.HasContent, t.HasLoop, t.HasPlacement⟩

theorem closed_kinds (t : Template) : t.kinds.Closed where
  content := .loop
  item := .item
  inside := .inside
  markup fuel _ _ r := .placed fuel r
  loop := .placed

theorem within_kinds (t : Template) : (Records.ofTemplate t).Within t.kinds :=
  .ofTemplate (fun _ hg _ hb => .block hg hb) fun _ hl => .written hl

/-- An element as it was written: one of a document before it is started, or one in the contents of a
template. -/
def Wrote (t : Template) (d : Document) (e : Element) : Prop :=
  (∃ x, d.isAttached x = true ∧ d.element? x = some e) ∨
    ∃ html, t.HasContent html ∧ .element e ∈ Tree.dataAll (Tree.parse html)

/-- An element that completes one that was written. -/
def Completed (t : Template) (d : Document) (e : Element) : Prop :=
  ∃ e₀, t.Wrote d e₀ ∧ e₀.Completes e

theorem supplies_completed (t : Template) (d : Document) : Supplies t.kinds (t.Completed d) where
  closed := t.closed_kinds
  completed html h e he :=
    ⟨e, .inr ⟨html, h, he⟩, Element.completes_completeHandlers (distinct_of_mem_parse he)⟩
  shown o scope u _ := fun ⟨e₀, h₀, h⟩ => ⟨e₀, h₀, h.newAttributes o scope u⟩

end Template

/-! ## Documents as they are parsed -/

namespace Document

variable {d : Document} {m x : NodeId}

theorem data_of_element? {e : Element} (h : d.element? x = some e) : d.data x = .element e := by
  rw [element?] at h
  cases hdata : d.data x <;> rw [hdata] at h <;> cases h
  rfl

/-- A document in which nothing has been shown: all nodes stand below the root, none has an owner, and
no element has two attributes of one name. -/
structure Pristine (d : Document) : Prop where
  wellFormed : d.WellFormed
  allAttached : d.AllAttached
  unowned : ∀ x w, ¬ d.Owns w x
  root : d.data root = .root
  distinct : ∀ x e, d.Live x → d.data x = .element e → e.Distinct

theorem pristine_parse (html : List Char) : (parse html).Pristine := by
  obtain ⟨s, hs, -⟩ := wellFormed_empty.rooted
  have hkeeps := (wellFormed_empty.graftAll (Tree.parse html) hs.live.issued).keeps
  have hroot : (parse html).data Document.root = .root := by
    rw [parse, parseInto, hkeeps.data_eq wellFormed_empty.closed_live hs.live, hs.data_eq,
      (holds_empty hs).2]
  refine ⟨wellFormed_parse html, allAttached_parse html, not_owns_parse html, hroot, fun x e hx he => ?_⟩
  rcases wellFormed_empty.data_graftAll _ hs.live x hx with ⟨t, ht⟩ | hnew
  · rw [(holds_empty ht).1, hroot] at he
    cases he
  · exact distinct_of_mem_parse (he ▸ hnew)

namespace Pristine

variable (hd : d.Pristine)
include hd

/-- At the top of a document an element is secure unless it has attributes that bind bindings. -/
theorem secure (hm : m ∈ d.children Document.root)
    (hp : ∀ name ∈ (d.attributes m).map (·.1), startsWith "pado-pado-".toList name.toList = false) :
    d.Secure m := by
  rw [hd.wellFormed.mem_children] at hm
  have htop : ∀ {x}, TransGen d.Under m x → x = Document.root := fun {x} hx => by
    obtain ⟨q, hq, hqx⟩ := TransGen.head'_iff.mp hx
    obtain rfl := hq.unique hm
    rcases hqx.cases_head with rfl | ⟨r, hr, -⟩
    · rfl
    · exact absurd hr hd.wellFormed.not_under_root
  refine ⟨fun x hx => ?_, fun x e hx he => ?_, fun x hx => ?_⟩
  · obtain ⟨s, hs⟩ := hd.wellFormed.closed_live.above hm.live hx
    rcases howner : d.owner? x with _ | w
    · rfl
    · exact absurd (hs.owns_iff.mpr howner) (hd.unowned x w)
  · rcases reflTransGen_iff_eq_or_transGen.mp hx with rfl | hx
    · rw [Document.attributes, element?, he] at hp
      exact hp
    · rw [htop hx, hd.root] at he
      cases he
  · rw [htop hx, hd.root]
    rfl

/-- The elements of a started document complete those of the document. -/
theorem vetted_start {P : Element → Prop}
    (hcompleted : ∀ x e, d.Live x → d.data x = .element e → P e.completeHandlers)
    (hmark : ∀ e, P e → P e.mark) : d.start.Vetted P := by
  obtain ⟨r, hr, -⟩ := hd.wellFormed.rooted
  have hvetted : (d.completeHandlers Document.root).Vetted P := by
    refine hd.wellFormed.vetted_updateElements (hd.wellFormed.nodup_elements hr.live)
      (fun x => hd.wellFormed.live_of_mem_elements hr.live)
      (fun _ => Element.hasAttribute_completeHandlers) fun x e hx he =>
        .inl ⟨fun _ => hcompleted x e hx he, fun hnot => ?_⟩
    refine absurd ((hd.wellFormed.mem_elements_iff hr.live).mpr ⟨?_, by rw [element?, he]; rfl⟩) hnot
    refine (reflTransGen_iff_eq_or_transGen.mp
      (hd.wellFormed.isAttached_iff.mp (hd.allAttached x hx))).resolve_left ?_
    rintro rfl
    rw [hd.root] at he
    cases he
  rw [start, markStarted]
  split
  · exact hvetted.updateElement (hd.wellFormed.wellFormed_updateElements _ _) _ hmark
      fun _ => Element.hasAttribute_setAttribute
  · exact hvetted

end Pristine

end Document

/-! ## Exports -/

/-- Of equal names the last one in the module counts, and then what was there before. -/
theorem Exports.lookup_install (name : String) : ∀ module exports : Exports,
    (exports.install module).lookup name = (module.reverse.lookup name).or (exports.lookup name)
  | [], _ => rfl
  | (n, e) :: module, exports => by
    have h := lookup_install name module (insertByKey n e exports)
    rw [lookup_insertByKey] at h
    rw [List.reverse_cons, List.lookup_append]
    refine h.trans ?_
    rw [List.lookup_cons, List.lookup_nil, Option.or_assoc]
    by_cases hn : name = n
    · simp [hn]
    · simp [hn, beq_eq_false_iff_ne.mpr hn]

theorem Exports.lookup_installAll (name : String) : ∀ (modules : List Exports) (exports : Exports),
    (modules.foldl install exports).lookup name =
      (modules.flatten.reverse.lookup name).or (exports.lookup name)
  | [], _ => rfl
  | m :: modules, exports => by
    rw [List.foldl_cons, lookup_installAll name modules, lookup_install, List.flatten_cons,
      List.reverse_append, List.lookup_append, Option.or_assoc]

namespace Page

variable {t : Template} {d : Document} {load : Loader} {m x : NodeId} {p : Page}

/-- A page that was started and shows a state. -/
structure Running (t : Template) (d : Document) (load : Loader) (m : NodeId) (p : Page) : Prop where
  isShown : p.isShown = true
  completes : p.options.completeHandlers = true
  vets : p.view.Vets t.kinds (t.Completed d)
  bears : p.document.Bears m
  handlers : ∀ name, p.handlers.lookup name =
    (load.loadAll d.moduleSources).flatten.reverse.lookup name

/-- To show a state sets a page running that was started. -/
theorem running_showState (hcompletes : p.options.completeHandlers = true)
    (hvets : p.view.Vets t.kinds (t.Completed d)) (hbears : p.view.document.Bears m)
    (hhandlers : ∀ name, p.handlers.lookup name =
      (load.loadAll d.moduleSources).flatten.reverse.lookup name) (u : Update) :
    Running t d load m (p.showState u).2 := by
  rw [showState_eq]
  exact ⟨rfl, hcompletes, hvets.render (t.supplies_completed d) hcompletes p.scope u,
    hbears.render p.options p.scope u, hhandlers⟩

namespace Running

theorem update (h : Running t d load m p) (s : List (String × Value)) :
    Running t d load m (p.update s).2 :=
  running_showState (p := p.merge s) h.completes h.vets h.bears h.handlers _

/-- Each call keeps a page running. -/
theorem perform (h : Running t d load m p) : ∀ call : Call, Running t d load m (p.perform call)
  | .update s => h.update s
  | .render s => by
    rw [perform_render, render, if_pos h.isShown]
    exact h.update s

/-- A sequence of calls keeps a page running. -/
theorem performAll : ∀ {p : Page} (calls : List Call), Running t d load m p →
    Running t d load m (p.performAll calls)
  | _, [], h => h
  | _, call :: calls, h => performAll calls (h.perform call)

end Running

/-- The first call to render starts a page. -/
theorem running_render (hd : d.Pristine) (hnew : d.isStarted = false) (hm : d.markedElement? = some m)
    (hsecure : d.Secure m) (o : ViewOptions) (s : List (String × Value)) :
    Running t d load m ((ofTemplate t d o load).render s).2 := by
  have hbears := hd.wellFormed.bears_start (.of_unowned hd.unowned) hm hsecure
  have hvets : View.Vets t.kinds (t.Completed d) ⟨.ofTemplate t, d.start⟩ := by
    refine ⟨hbears.wellFormed, t.within_kinds, hd.vetted_start (fun x e hx he => ?_) ?_⟩
    · exact ⟨e, .inl ⟨x, hd.allAttached x hx, by rw [element?, he]; rfl⟩,
        Element.completes_completeHandlers (hd.distinct x e hx he)⟩
    · rintro e ⟨e₀, h₀, h⟩
      exact ⟨e₀, h₀, h.mark⟩
  have hfirst : (ofTemplate t d o load).isShown = false := rfl
  have hunmarked : ¬ (ofTemplate t d o load).document.isStarted = true := by
    rw [Bool.not_eq_true]
    exact hnew
  rw [render, hfirst, if_neg Bool.false_ne_true, if_neg hunmarked, start_eq]
  refine running_showState rfl hvets hbears (fun name => ?_) .all
  exact (Exports.lookup_installAll name _ []).trans Option.or_none

/-- Once a page has been rendered it stays started, whatever is called: its document is marked, the
exports of its modules are installed, of equal names the last one, and each event attribute that no
binding sets is the completed one of an element as it was written, outside of the texts that bindings
show.  None of them is a group of braces unless it was written as a group right inside a group. -/
theorem performAll_started (hd : d.Pristine) (hnew : d.isStarted = false)
    (hm : d.markedElement? = some m) (hsecure : d.Secure m) (o : ViewOptions) (load : Loader)
    (s : List (String × Value)) (calls : List Call) :
    ((ofTemplate t d o load).performAll (.render s :: calls)).document.isStarted = true ∧
      (∀ name, ((ofTemplate t d o load).performAll
        (.render s :: calls)).handlers.lookup name =
          (load.loadAll d.moduleSources).flatten.reverse.lookup name) ∧
      ∀ x e, ((ofTemplate t d o load).performAll
          (.render s :: calls)).document.isAttached x = true →
        ((ofTemplate t d o load).performAll
          (.render s :: calls)).document.element? x = some e →
        ¬ ((ofTemplate t d o load).performAll (.render s :: calls)).document.Shadowed x →
        ∃ e₀, t.Wrote d e₀ ∧ e.tag = e₀.tag ∧ ∀ name, isEventAttribute name = true →
          e.hasAttribute (bindingName name) = false →
            e.attribute? name = (e₀.attribute? name).map finishedCall ∧
            ∀ value, e.attribute? name = some value → completeCall value.toList = none ∨
              ∃ written, e₀.attribute? name = some written ∧ IsNested written.toList := by
  have hrun : Running t d load m
      ((ofTemplate t d o load).performAll (.render s :: calls)) := by
    rw [performAll_cons, perform_render]
    exact (running_render hd hnew hm hsecure o s).performAll calls
  generalize (ofTemplate t d o load).performAll (.render s :: calls) = p at hrun ⊢
  refine ⟨hrun.bears.isStarted, hrun.handlers, fun x e hx he hshadow => ?_⟩
  have hlive := hrun.bears.wellFormed.live_of_isAttached hx
  obtain ⟨e₀, h₀, hcompletes⟩ :=
    (hrun.vets.elements x e hlive (data_of_element? he)).resolve_right hshadow
  refine ⟨e₀, h₀, hcompletes.tag, fun name hname hfree => ?_⟩
  have hcall := hcompletes.handlers name hname hfree
  refine ⟨hcall, fun value hvalue => ?_⟩
  rw [hvalue, eq_comm, Option.map_eq_some_iff] at hcall
  obtain ⟨written, hwritten, rfl⟩ := hcall
  by_cases hnested : IsNested written.toList
  · exact .inr ⟨written, hwritten, hnested⟩
  · exact .inl (completeCall_finishedCall hnested)

/-- A document with a module, and a button that is shown if the state says so. -/
def buttonTemplate : Template where
  html := "<script type='module' src='a.js'></script><!-- if:page_if_0 -->"
  conditions := [⟨"page_if_0", [⟨.first, some "open", "<button onclick=\x7bh\x7d>+</button>"⟩]⟩]
  loops := []

/-- The document of the button before anything is shown. -/
def buttonDocument : Document :=
  parse buttonTemplate.html.toList

/-- A page of the button, with a loader for its module. -/
def buttonPage : Page :=
  .ofTemplate buttonTemplate buttonDocument {} (.ofModules [("a.js", [("h", .value .null)])])

/-- The button comes with an update, and its handler is completed all the same. -/
theorem performAll_started_button : buttonDocument.isStarted = false ∧
    buttonDocument.markedElement? = some ⟨1, 0⟩ ∧
    (buttonPage.performAll [.render [], .update [("open", .boolean true)]]).document.isStarted = true ∧
    ((buttonPage.performAll
      [.render [], .update [("open", .boolean true)]]).handlers.lookup "h").isSome = true ∧
    (buttonPage.performAll [.render [], .update [("open", .boolean true)]]).document.toHtml =
      ("<script type=\"module\" src=\"a.js\" pado-init=\"\"></script>" ++
        "<!-- if:page_if_0 --><button onclick=\"h()\">+</button>").toList := by
  have hnew : buttonDocument.isStarted = false := by decide +kernel
  have hm : buttonDocument.markedElement? = some ⟨1, 0⟩ := by decide +kernel
  have hd : buttonDocument.Pristine := pristine_parse _
  have hsecure := hd.secure (m := ⟨1, 0⟩) (by decide +kernel) (by decide +kernel)
  obtain ⟨hstarted, hhandlers, -⟩ := performAll_started (t := buttonTemplate) hd hnew hm hsecure {}
    (.ofModules [("a.js", [("h", .value .null)])]) [] [.update [("open", .boolean true)]]
  refine ⟨hnew, hm, hstarted, ?_, by decide +kernel⟩
  rw [buttonPage, hhandlers]
  decide +kernel

/-! ## Pages that are updated first -/

/-- To update starts nothing. -/
theorem update_spec (p : Page) (s : List (String × Value)) : (p.update s).2.isShown = true ∧
    (p.update s).2.handlers = p.handlers ∧ (p.update s).2.options = p.options := by
  rw [update, showState_eq]
  exact ⟨rfl, rfl, rfl⟩

/-- Once a state has been shown, nothing is started any more. -/
theorem performAll_of_isShown : ∀ {p : Page} (calls : List Call), p.isShown = true →
    (p.performAll calls).handlers = p.handlers ∧ (p.performAll calls).options = p.options
  | _, [], _ => ⟨rfl, rfl⟩
  | p, call :: calls, h => by
    obtain ⟨s, hs⟩ : ∃ s, p.perform call = (p.update s).2 := by
      rcases call with s | s
      · exact ⟨s, by rw [perform_render, render, if_pos h]⟩
      · exact ⟨s, rfl⟩
    obtain ⟨hshown, hhandlers, hoptions⟩ := p.update_spec s
    rw [performAll_cons, hs, ← hhandlers, ← hoptions]
    exact performAll_of_isShown calls hshown

/-- If the first call is to update, no module's exports come to be installed, and no handlers in new
content completed, whatever is called afterwards. -/
theorem performAll_update_first (o : ViewOptions) (s : List (String × Value)) (calls : List Call) :
    ((ofTemplate t d o load).performAll (.update s :: calls)).handlers = [] ∧
      ((ofTemplate t d o load).performAll (.update s :: calls)).options = o := by
  obtain ⟨hshown, hhandlers, hoptions⟩ := (ofTemplate t d o load).update_spec s
  obtain ⟨hhandlers', hoptions'⟩ := performAll_of_isShown calls hshown
  rw [performAll_cons]
  exact ⟨hhandlers'.trans hhandlers, hoptions'.trans hoptions⟩

/-- A page with a button from the start. -/
def plainPage : Page :=
  .ofTemplate ⟨"", [], [], none⟩ (parse "<button onclick=\x7bh\x7d>+</button>".toList)

/-- The first call to render comes after an update: the document is not marked, and the handler of its
button stays as it was written.  Where there is a module, its exports never come to be installed. -/
theorem not_isStarted_plainPage : plainPage.document.isStarted = false ∧
    plainPage.document.markedElement?.isSome = true ∧
    (plainPage.performAll [.update [], .render []]).document.isStarted = false ∧
    (plainPage.performAll [.update [], .render []]).document.toHtml =
      "<button onclick=\"\x7bh\x7d\">+</button>".toList ∧
    ∀ s calls, (buttonPage.performAll (.update s :: calls)).handlers = [] :=
  ⟨by decide +kernel, by decide +kernel, by decide +kernel, by decide +kernel,
    fun s calls => (performAll_update_first {} s calls).1⟩

end Page

end LiveMarkup
