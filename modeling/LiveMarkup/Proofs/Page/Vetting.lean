import LiveMarkup.Proofs.Page.Contents
import LiveMarkup.Proofs.Page.Vetted

/-!
# Passes keep documents vetted

New content is made of the contents that the records give.  If the elements of all these contents have
a property once their handlers are completed, and no binding takes it away, then a pass keeps the
elements of a document vetted (`View.Vets.render`).
-/

namespace LiveMarkup

open Document Relation

/-- Contents of a kind have elements with a property once their handlers are completed, and elements
keep it when their bindings are shown. -/
structure Supplies (K : Kinds) (P : Element → Prop) : Prop where
  closed : K.Closed
  completed : ∀ html, K.content html → ∀ e, .element e ∈ Tree.dataAll (Tree.parse html) →
    P e.completeHandlers
  shown : ∀ o scope u e, P e → P (View.newAttributes o scope u e)

namespace View

variable {K : Kinds} {P : Element → Prop} {build : Build} {o : ViewOptions} {scope : Scope}
  {u : Update} {v : View} {p under marker target : NodeId} {kind : DirectiveKind}
  {shows : NodeId → String → View → Option View} {tells : Telling}

/-- The contents in the records of a view are of a kind, and the elements of its document vetted. -/
structure Vets (K : Kinds) (P : Element → Prop) (v : View) : Prop where
  wellFormed : v.document.WellFormed
  records : v.records.Within K
  elements : v.document.Vetted P

/-- Fragments are made of contents with all elements vetted. -/
def BuildsVetted (K : Kinds) (P : Element → Prop) (build : Build) : Prop :=
  ∀ (scope : Scope) (html : List Char) (v : View), K.content html → Vets K P v →
    Vets K P (build scope html v).2

/-- A group or loop is shown with all elements vetted. -/
def ShowsVetted (K : Kinds) (P : Element → Prop)
    (shows : NodeId → String → View → Option View) : Prop :=
  ∀ (id p : NodeId) (name : String) (v v' : View), Vets K P v → v.document.Under id p →
    shows id name v = some v' → Vets K P v'

namespace Vets

theorem clearOwned (hv : Vets K P v) (hm : v.document.Under marker p) :
    Vets K P { v with document := (v.document.clearOwned marker).2 } :=
  ⟨(hv.wellFormed.clearOwned marker).1.wellFormed, hv.records, hv.elements.clearOwned hv.wellFormed hm⟩

section

variable (hs : Supplies K P) (hb : BuildsAside build tells) (hp : BuildsVetted K P build)
include hb hp

theorem showGroup (hv : Vets K P v) (hm : v.document.Under marker p) {g : ConditionGroup}
    (hg : ∀ b ∈ g.blocks, K.content b.content.toList) : Vets K P (v.showGroup build o scope marker g) := by
  have hcleared := hv.clearOwned hm
  unfold View.showGroup
  simp only
  split
  · exact hcleared
  · rename_i b hchosen
    split
    · exact hcleared
    · have hnew := hb scope b.content.toList
        { v with document := (v.document.clearOwned marker).2 } hcleared.wellFormed
      have hbuilt := hp scope b.content.toList _ (hg b (List.mem_of_find?_eq_some hchosen)) hcleared
      have hm0 := hv.wellFormed.under_clearOwned_parent hm
      exact ⟨(hnew.toAside.emptied_insertOwned hcleared.wellFormed hm0).wellFormed, hbuilt.records,
        hbuilt.elements.insertOwned hcleared.wellFormed hnew.toAside hm0⟩

include hs in
theorem addItems (o : ViewOptions) (scope : Scope) {l : LoopDefinition} (hl : K.loop l) {d : Document}
    (hd : d.WellFormed) : ∀ (items : List Value) (i : Nat) (v : View) {ops : List Operation},
      AsideBy target ops d v.document → Vets K P v → Vets K P (addItems build o scope l target i items v)
  | [], _, _, _, _, hv => hv
  | item :: items, i, v, ops, h, hv => by
    obtain ⟨hbody, hrecords⟩ := hv.records.body hs.closed o.depth hl i
    have hitem := hb (itemScope scope l i item) (v.records.body o.depth l i).1
      { v with records := (v.records.body o.depth l i).2 } h.wellFormed
    have hbuilt := hp (itemScope scope l i item) (v.records.body o.depth l i).1
      { v with records := (v.records.body o.depth l i).2 } hbody ⟨hv.wellFormed, hrecords, hv.elements⟩
    have happend := hitem.appendFragment h.wellFormed h.toAside.live
    rw [addItems_cons]
    exact addItems o scope hl hd items (i + 1) _ (h.confined happend hd)
      ⟨happend.wellFormed, hbuilt.records,
        hbuilt.elements.appendFragment h.wellFormed hitem.toAside h.toAside.live⟩

include hs in
theorem showLoop (hv : Vets K P v) (hm : v.document.Under marker p) {l : LoopDefinition}
    (hl : K.loop l) (items : List Value) :
    Vets K P (v.showLoop build o scope marker l items) := by
  have hcleared := hv.clearOwned hm
  have hm0 := hv.wellFormed.under_clearOwned_parent hm
  have hfragment := AsideBy.createFragment hcleared.wellFormed []
  have hnone : ∀ e, .element e ∉ Tree.dataAll (Tree.parse []) := fun e he => by
    rw [show Tree.parse [] = [] from rfl, Tree.dataAll_nil] at he
    cases he
  have hitems := asideBy_addItems hb o scope l hcleared.wellFormed items 0
    { v with document := ((v.document.clearOwned marker).2.createFragment []).2 } hfragment
  have hbuilt := addItems hs hb hp o scope hl hcleared.wellFormed items 0
    { v with document := ((v.document.clearOwned marker).2.createFragment []).2 } hfragment
    ⟨hfragment.wellFormed, hv.records, hcleared.elements.createFragment hcleared.wellFormed hnone⟩
  unfold View.showLoop
  exact ⟨(hitems.toAside.emptied_insertOwned hcleared.wellFormed hm0).wellFormed, hbuilt.records,
    hbuilt.elements.insertOwned hcleared.wellFormed hitems.toAside hm0⟩

omit hb hp in
theorem markers (kind : DirectiveKind) (under : NodeId) (hshows : ShowsVetted K P shows)
    (ns : List (NodeId × String)) (hv : Vets K P v) :
    Vets K P (ns.foldl (markerStep kind shows under) v) := by
  refine List.foldlRecOn ns _ hv fun v hv n _ => ?_
  rcases markerStep_cases kind shows under v n with heq | ⟨m, v', -, -, hbelow, hv', heq⟩ <;> rw [heq]
  · exact hv
  · rw [hv.wellFormed.isDescendant_iff] at hbelow
    obtain ⟨q, hq, -⟩ := TransGen.head'_iff.mp hbelow
    exact hshows n.1 q m.name v v' hv hq hv'

omit hb hp in
/-- Steps for one node after the other. -/
theorem foldl {step : Document → NodeId → Document} (hv : Vets K P v)
    (hstep : ∀ (d : Document) (x : NodeId), d.WellFormed → d.Vetted P →
      (step d x).WellFormed ∧ (step d x).Vetted P) {xs : List NodeId} :
    Vets K P { v with document := xs.foldl step v.document } := by
  have h := List.foldlRecOn (motive := fun d => d.WellFormed ∧ d.Vetted P) xs step
    ⟨hv.wellFormed, hv.elements⟩ fun d h x _ => hstep d x h.1 h.2
  exact ⟨h.1, hv.records, h.2⟩

omit hb hp in
theorem showTexts (o : ViewOptions) (scope : Scope) (u : Update) (under : NodeId) (hv : Vets K P v) :
    Vets K P { v with document := (v.document.showTexts o.namesItems scope u under).2 } := by
  rw [showTexts_eq]
  refine foldl hv fun d n hd h => ?_
  rcases hd.showText_cases o scope u n with ⟨heq, -⟩ | ⟨text, html, hn, hbound, -, heq, -⟩ <;> rw [heq]
  · exact ⟨hd, h⟩
  · have hsome : (d.data n).boundText?.isSome = true := Option.isSome_of_eq_some hbound
    exact ⟨(hd.confined_setInnerHtml hn html).wellFormed, h.setInnerHtml hd hn hsome html⟩

omit hb hp in
include hs in
theorem showAttributes (o : ViewOptions) (scope : Scope) (u : Update) (under : NodeId)
    (hv : Vets K P v) :
    Vets K P { v with document := (v.document.showAttributes o.namesItems scope u under).2 } := by
  rw [showAttributes_eq]
  refine foldl hv fun d n hd h => ?_
  exact ⟨hd.wellFormed_updateElement n _, h.updateElement hd n (hs.shown o scope u) fun _ =>
    Element.hasAttribute_newAttributes (by decide)⟩

include hs in
/-- Showing a state below a node keeps all elements vetted. -/
theorem showWith (o : ViewOptions) (scope : Scope) (u : Update) (under : NodeId) (hv : Vets K P v) :
    Vets K P (v.showWith build o scope u under).2 := by
  have hgroup : ShowsVetted K P (groupShower build o scope u) := fun id p name v v' hv hm h => by
    obtain ⟨g, hg, -, rfl⟩ := groupShower_eq_some h
    exact showGroup hb hp hv hm (hv.records.blocks name g hg)
  have hloop : ShowsVetted K P (loopShower build o scope u) := fun id p name v v' hv hm h => by
    obtain ⟨l, items, hl, -, -, rfl⟩ := loopShower_eq_some h
    exact showLoop hs hb hp hv hm (hv.records.loops name l hl).1 items
  have h1 := markers .condition under hgroup (v.document.comments under) hv
  rw [← showGroups_snd] at h1
  have h2 := markers .loop under hloop
    ((v.showGroups build o scope u under).2.document.comments under) h1
  rw [← showLoops_snd] at h2
  rw [showWith_snd]
  exact (h2.showTexts o scope u under).showAttributes hs o scope u under

end

/-- The elements of a new fragment are vetted once their handlers are completed. -/
theorem newFragment (hs : Supplies K P) (ho : o.completeHandlers = true) {html : List Char}
    (hhtml : K.content html) (hv : Vets K P v) : Vets K P (v.newFragment o html).2 := by
  have hnew := asideBy_newFragment o html hv.wellFormed
  refine ⟨hnew.wellFormed, hv.records, ?_⟩
  unfold View.newFragment
  dsimp only
  rw [if_pos ho, Document.completeHandlers]
  exact hv.elements.createFragment_updateElements hv.wellFormed
    (fun _ => Element.hasAttribute_completeHandlers) (hs.completed html hhtml)

theorem buildsVetted_build (hs : Supplies K P) (ho : o.completeHandlers = true) :
    ∀ fuel, BuildsVetted K P (View.build o fuel)
  | 0 => fun _ _ _ hhtml hv => hv.newFragment hs ho hhtml
  | fuel + 1 => fun scope html v hhtml hv => by
    rw [build_succ]
    dsimp only
    exact showWith hs (buildsAside_build o fuel) (buildsVetted_build hs ho fuel) o scope .all _
      (hv.newFragment hs ho hhtml)

/-- A pass keeps all elements vetted. -/
theorem render (hs : Supplies K P) (ho : o.completeHandlers = true) (scope : Scope) (u : Update)
    (hv : Vets K P v) : Vets K P (v.render o scope u).2 := by
  unfold View.render showUnder
  split
  · exact hv
  · exact showWith hs (buildsAside_build o _) (buildsVetted_build hs ho _) o scope u root hv

end Vets

end View

end LiveMarkup
