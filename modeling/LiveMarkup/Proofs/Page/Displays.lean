import LiveMarkup.Page.Basic
import LiveMarkup.Proofs.Page.Starting

/-!
# Pages that display their state

A page displays its state if its document holds a forest that shows it (`Page.Displays`).  The first
call to render brings that about (`Displays.of_render`), each further call keeps it
(`Displays.perform`), and so does any sequence of calls (`Displays.performAll`).  Two pages that
display the same state have the same tree but for the order of attributes (`Displays.same`).
-/

namespace LiveMarkup

open Document Forest View

/-- What it takes to show states in some markup: weights for the groups that it has and that are
nested in them, less of them than make a handle come back, and conditions and nodes that can be
skipped. -/
structure Showable (o : ViewOptions) (r : Records) (w : NodeData → Nat) (markup : Forest Unit) :
    Prop where
  weighs : Weighs r w
  loops : r.loops = []
  records : r.Sane o
  nodes : ∀ n ∈ markup.nodes, n.2.Sane o
  size : markup.weigh w ≤ r.size
  handles : 3 * markup.weigh w + 1 < generations

variable {o : ViewOptions} {r : Records} {w : NodeData → Nat} {f g markup : Forest Unit}
  {change : Element → Element} {scope : Scope}

theorem Showable.altered (hch : Element.Harmless change) (ha : f.Altered change g)
    (h : Showable o r w f) : Showable o r w g where
  weighs := h.weighs
  loops := h.loops
  records := h.records
  nodes := ha.sane hch h.nodes
  size := ha.weigh h.weighs.elements ▸ h.size
  handles := ha.weigh h.weighs.elements ▸ h.handles

namespace Bindings

variable {x : String}

theorem lookup_merge : ∀ {more : List (String × Value)} {bs : Bindings}, x ∉ more.map (·.1) →
    (bs.merge more).lookup x = bs.lookup x
  | [], _, _ => rfl
  | (name, v) :: more, bs, h => by
    simp only [List.map_cons, List.mem_cons, not_or] at h
    show ((bs.set name v).merge more).lookup x = _
    rw [lookup_merge h.2, set, lookup_insertByKey, if_neg h.1]

theorem merge_append {bs : Bindings} {more more' : List (String × Value)} :
    bs.merge (more ++ more') = (bs.merge more).merge more' :=
  List.foldl_append

end Bindings

namespace Page

/-- A call with a snapshot of the state. -/
inductive Call where
  | render (snapshot : List (String × Value))
  | update (snapshot : List (String × Value))

/-- The snapshot of a call. -/
def Call.snapshot : Call → List (String × Value)
  | render s => s
  | update s => s

/-- A page after a call. -/
def perform (p : Page) : Call → Page
  | .render s => (p.render s).2
  | .update s => (p.update s).2

/-- A page after several calls. -/
def performAll (p : Page) (calls : List Call) : Page :=
  calls.foldl perform p

theorem perform_render (p : Page) (s : List (String × Value)) : p.perform (.render s) = (p.render s).2 :=
  rfl

theorem performAll_cons (p : Page) (call : Call) (calls : List Call) :
    p.performAll (call :: calls) = (p.perform call).performAll calls :=
  List.foldl_cons ..

/-- The tree that a page shows. -/
def tree (p : Page) : Tree :=
  p.document.subtree root

/-- A page displays its state in some markup. -/
structure Displays (o : ViewOptions) (r : Records) (markup : Forest Unit) (p : Page) : Prop where
  options : p.options = o
  records : p.view.records = r
  isShown : p.isShown = true
  sound : p.document.Sound
  stands : ∃ f sp, sp.data = .root ∧ Stands p.document root sp none [] [] f ∧
    Shows o p.scope r (.keys []) (.keys []) (.keys []) f.shape markup

variable {html : List Char} {p q : Page} {call : Call} {calls : List Call} {u : Update}

theorem showState_eq : (p.showState u).2 =
    { p with view := (p.view.render p.options p.scope u).2, isShown := true } :=
  rfl

/-- A page displays the state that is shown, if it displayed before what is passed over. -/
theorem displays_showState (h : Showable o r w markup) (hopt : p.options = o)
    (hrec : p.view.records = r) (hd : p.document.Sound) {f : Forest NodeId} {sp : Slot}
    (hsp : sp.data = .root) (hst : Stands p.document root sp none [] [] f)
    (hshows : Shows o p.scope r u u u f.shape markup)
    (hcost : f.cost (newContent o p.scope r (made o p.scope r (r.size + 1 + o.depth)) u) w ≤ markup.weigh w)
    (hc : Clean o p.scope r markup) : Displays o r markup (p.showState u).2 := by
  have hhandles := h.handles
  have hsize := h.size
  rw [showState_eq]
  rcases hu : u.isEmpty with _ | _
  · have hrender : (p.view.render p.options p.scope u).2 =
        (p.view.showWith (build o (r.size + 1 + o.depth)) o p.scope u root).2 := by
      simp only [View.render, showUnder, hu, hopt, hrec, Bool.false_eq_true, if_false]
    obtain ⟨g, hr', ht, hs, -⟩ := showWith_spec (o := o) (v := p.view) (u := u) h.weighs
      (build_spec h.weighs h.loops o p.scope (r.size + 1 + o.depth)) hrec h.loops hd hst (.inr (by omega))
    rw [hrender]
    generalize (p.view.showWith (build o (r.size + 1 + o.depth)) o p.scope u root).2 = v at hr' ht ⊢
    refine ⟨hopt, hr', rfl, ht.swapped.sound hd, g, sp, hsp, ht.stands, ?_⟩
    rw [hs]
    exact hshows.shown h.weighs h.records (made_shows h.weighs h.records (r.size + 1 + o.depth)) hc h.nodes
      (by omega)
  · obtain rfl : u = .keys [] := by
      rcases u with _ | names
      · cases hu
      · rw [List.isEmpty_iff.mp hu]
    exact ⟨hopt, hrec, rfl, hd, f, sp, hsp, hst, hshows⟩

theorem foldl_install : ∀ (modules : List Exports) (p : Page),
    modules.foldl install p = { p with handlers := modules.foldl Exports.install p.handlers }
  | [], _ => rfl
  | m :: modules, p => foldl_install modules (p.install m)

theorem start_eq (p : Page) : p.start =
    { p with
      handlers := (p.load.loadAll p.document.moduleSources).foldl Exports.install p.handlers
      view := { p.view with document := p.document.start } } := by
  show ((p.load.loadAll p.document.moduleSources).foldl install p).updateDocument _ = _
  rw [foldl_install]
  rfl

/-- A page with a parsed document, started if need be, holds a forest of its markup in which some
elements have been completed or marked. -/
theorem started_spec (hdoc : p.document = .parse html) : ∃ p',
    (if p.document.isStarted then p else p.start) = p' ∧ p'.options = p.options ∧
    p'.view.records = p.view.records ∧ p'.state = p.state ∧ p'.document.Sound ∧
    ∃ f sp f₁, sp.data = .root ∧ Stands p'.document root sp none [] [] f ∧
      (ofTrees (Tree.parse html)).Altered Element.completeHandlers f₁ ∧
      f₁.Altered Element.mark f.shape := by
  obtain ⟨f, sp, hsp, hd, hst, hshape⟩ := parse_spec html
  rw [← hdoc] at hd hst
  rw [← hshape]
  by_cases hs : p.document.isStarted = true
  · rw [if_pos hs]
    exact ⟨p, rfl, rfl, rfl, rfl, hd, f, sp, _, hsp, hst, .refl _ _, .refl _ _⟩
  · rw [if_neg hs]
    obtain ⟨g, hd', hst', f₁, ha₁, ha⟩ := start_spec hd hst
    rw [start_eq]
    exact ⟨_, rfl, rfl, rfl, rfl, hd', g, sp, f₁, hsp, hst', ha₁, ha⟩

/-- The first call to render shows the state in the markup of the started document. -/
theorem displays_render (h : Showable o r w (ofTrees (Tree.parse html)))
    (hopt : p.options.completing = o) (hrec : p.view.records = r)
    (hdoc : p.document = .parse html) (hfirst : p.isShown = false) : ∃ markup,
      Showable o r w markup ∧
      (∀ scope, Clean o scope r (ofTrees (Tree.parse html)) → Clean o scope r markup) ∧
      ∀ s, Clean o ⟨p.state.merge s, []⟩ r markup →
        Displays o r markup (p.render s).2 ∧ (p.render s).2.state = p.state.merge s := by
  obtain ⟨p', hp', hopt', hrec', hstate, hd, f, sp, f₁, hsp, hst, ha₁, ha⟩ := started_spec hdoc
  have hshowable := (h.altered Element.harmless_completeHandlers ha₁).altered
    Element.harmless_mark ha
  refine ⟨f.shape, hshowable, fun scope hc =>
    ha.clean Element.harmless_mark (ha₁.clean Element.harmless_completeHandlers hc),
    fun s hc => ?_⟩
  have hrender : (p.render s).2 =
      ((({ p' with options := p'.options.completing }).merge s).showState .all).2 := by
    rw [render, hfirst, if_neg Bool.false_ne_true, hp']
  rw [hrender]
  have hbare : f.shape.Bare := ha.bare (ha₁.bare (bare_ofTrees _))
  have hq : ({ p' with options := p'.options.completing } : Page).options = o := by
    rw [← hopt, ← hopt']
  generalize hq' : ({ p' with options := p'.options.completing } : Page) = q at hq ⊢
  have hrecq : q.view.records = r := by rw [← hq', ← hrec, ← hrec']
  have hdq : q.document = p'.document := by rw [← hq']; rfl
  have hstq : q.state = p.state := by rw [← hq', ← hstate]
  rw [← hdq] at hd hst
  rw [← hstq] at hc ⊢
  refine ⟨displays_showState (p := q.merge s) hshowable hq hrecq hd hsp hst (Shows.raw hbare) ?_ hc, ?_⟩
  · rw [← cost_shape]
    exact cost_le_weigh _
  · rw [showState_eq]
    rfl

namespace Displays

/-- Each call keeps the page up to date. -/
theorem update (h : Showable o r w markup) (hp : Displays o r markup p)
    (hc : Clean o p.scope r markup) {s : List (String × Value)}
    (hc' : Clean o ⟨p.state.merge s, []⟩ r markup) : Displays o r markup (p.update s).2 := by
  obtain ⟨f, sp, hsp, hst, hshows⟩ := hp.stands
  have hagree : AgreeOff (s.map (·.1)) p.scope (p.merge s).scope := fun x hx => by
    simp only [scope, merge, Scope.find?, List.findSome?_cons, Bindings.lookup_merge hx]
  unfold Page.update
  rw [hp.isShown, if_pos rfl]
  refine displays_showState h hp.options hp.records hp.sound hsp hst
    (hshows.after h.records hagree h.nodes) ?_ hc'
  rw [← cost_shape]
  exact hshows.cost_le h.weighs hc

theorem perform (h : Showable o r w markup) (hp : Displays o r markup p)
    (hc : Clean o p.scope r markup) (hc' : Clean o ⟨p.state.merge call.snapshot, []⟩ r markup) :
    Displays o r markup (p.perform call) ∧ (p.perform call).state = p.state.merge call.snapshot := by
  rcases call with s | s
  · show Displays o r markup (p.render s).2 ∧ (p.render s).2.state = p.state.merge s
    rw [render, if_pos hp.isShown]
    exact ⟨hp.update h hc hc', rfl⟩
  · exact ⟨hp.update h hc hc', rfl⟩

/-- A sequence of calls keeps the page up to date, if each state on the way is clean. -/
theorem performAll (h : Showable o r w markup) (hp : Displays o r markup p)
    (hc : ∀ seen, seen <+: calls.map Call.snapshot →
      Clean o ⟨p.state.merge seen.flatten, []⟩ r markup) :
    Displays o r markup (p.performAll calls) ∧
      (p.performAll calls).state = p.state.merge (calls.map Call.snapshot).flatten := by
  induction calls generalizing p with
  | nil => exact ⟨hp, rfl⟩
  | cons call calls ih =>
    have hnow : Clean o p.scope r markup := hc [] List.nil_prefix
    have hnext : Clean o ⟨p.state.merge call.snapshot, []⟩ r markup := by
      have := hc [call.snapshot] ((List.prefix_cons_inj _).mpr List.nil_prefix)
      rwa [List.flatten_singleton] at this
    obtain ⟨hp', hstate⟩ := hp.perform h hnow hnext
    obtain ⟨hlast, hstate'⟩ := ih hp' fun seen hseen => by
      rw [hstate, ← Bindings.merge_append]
      exact hc (call.snapshot :: seen) ((List.prefix_cons_inj _).mpr hseen)
    refine ⟨hlast, ?_⟩
    rw [List.map_cons, List.flatten_cons, Bindings.merge_append, ← hstate]
    exact hstate'

/-- Pages that display the same state have the same tree. -/
theorem same (h : Showable o r w markup) (hp : Displays o r markup p) (hq : Displays o r markup q)
    (hstate : p.state = q.state) : Tree.Same p.tree q.tree := by
  obtain ⟨f, sp, hsp, hst, hshows⟩ := hp.stands
  obtain ⟨g, sq, hsq, hst', hshows'⟩ := hq.stands
  have hscope : p.scope = q.scope := by rw [scope, scope, hstate]
  have := (hscope ▸ hshows).same h.records hshows' h.nodes
  rw [trees_shape, trees_shape] at this
  rw [tree, tree, subtree_eq hst, subtree_eq hst', hsp, hsq]
  exact .node (same_self _) this

end Displays

end Page

end LiveMarkup
