import LiveMarkup.Proofs.Document.Settled
import LiveMarkup.Proofs.Page.Attached

/-!
# Owners stand before their content in every page

A parsed document has no owners, and each step of a pass leaves owners before what they own
(`ownersPrecede_showWith`).  So this holds in a page after any number of passes
(`ownersPrecede_renderAll`).
-/

namespace LiveMarkup

open Relation

namespace Document

variable {d : Document} {c : NodeId}

theorem WellFormed.wellFormed_updateElement (hd : d.WellFormed) (c : NodeId) (f : Element → Element) :
    (d.updateElement c f).WellFormed := by
  by_cases hc : d.Live c
  · have hsteady := hd.steady_update (f := fun s => { s with data := s.data.mapElement f })
      (fun _ => hc) (fun _ => rfl) (fun _ => rfl) fun _ => rfl
    rw [updateElement_eq]
    exact hsteady.wellFormed
  · rwa [hd.updateElement_of_not_live hc]

theorem WellFormed.wellFormed_updateElements (hd : d.WellFormed) (f : Element → Element)
    (xs : List NodeId) : (xs.foldl (fun d n => d.updateElement n f) d).WellFormed :=
  List.foldlRecOn xs _ hd fun _ hd x _ => hd.wellFormed_updateElement x f

namespace OwnersPrecede

theorem updateElement (h : d.OwnersPrecede) (hd : d.WellFormed) (c : NodeId) (f : Element → Element) :
    (d.updateElement c f).OwnersPrecede := by
  by_cases hc : d.Live c
  · have hd' := hd.wellFormed_updateElement c f
    have hr := rewrites_update (f := fun s => { s with data := s.data.mapElement f }) (fun _ => rfl) hc
    rw [updateElement_eq] at hd' ⊢
    refine h.rewrites hd hd' hr ?_ ?_ ?_ <;> (intro x s _; split_ifs <;> rfl)
  · rwa [hd.updateElement_of_not_live hc]

/-- Steps for one node after the other. -/
theorem foldl {step : Document → NodeId → Document}
    (hstep : ∀ (d : Document) (x : NodeId), d.WellFormed → d.OwnersPrecede →
      (step d x).WellFormed ∧ (step d x).OwnersPrecede) :
    ∀ (xs : List NodeId) {d : Document}, d.WellFormed → d.OwnersPrecede →
      (xs.foldl step d).OwnersPrecede
  | [], _, _, h => h
  | x :: xs, d, hd, h => by
    obtain ⟨hd1, h1⟩ := hstep d x hd h
    rw [List.foldl_cons]
    exact foldl hstep xs hd1 h1

theorem updateElements (h : d.OwnersPrecede) (hd : d.WellFormed) (f : Element → Element)
    (xs : List NodeId) : (xs.foldl (fun d n => d.updateElement n f) d).OwnersPrecede :=
  foldl (fun _ x hd h => ⟨hd.wellFormed_updateElement x f, h.updateElement hd x f⟩) xs hd h

theorem showTexts (h : d.OwnersPrecede) (hd : d.WellFormed) (o : ViewOptions) (scope : Scope)
    (up : Update) (xs : List NodeId) :
    (xs.foldl (fun d n => (d.showText o.namesItems scope up n).2) d).OwnersPrecede := by
  refine foldl (fun d x hd h => ?_) xs hd h
  rcases hd.showText_cases o scope up x with ⟨heq, -⟩ | ⟨text, html, hx, -, -, heq, -⟩
  · rw [heq]
    exact ⟨hd, h⟩
  · rw [heq]
    exact ⟨(hd.confined_setInnerHtml hx html).wellFormed, h.setInnerHtml hd hx html⟩

end OwnersPrecede

theorem OwnersPrecede.of_unowned (h : ∀ x w, ¬ d.Owns w x) : d.OwnersPrecede :=
  ⟨fun hw => absurd hw (h _ _), fun _ => List.pairwise_of_forall fun x w => h x w⟩

theorem ownersPrecede_parse (html : List Char) : (parse html).OwnersPrecede :=
  .of_unowned (not_owns_parse html)

end Document

namespace View

open Document

variable {build : Build} {o : ViewOptions} {scope : Scope} {up : Update} {v : View}
  {p under marker target : NodeId} {kind : DirectiveKind}
  {shows : NodeId → String → View → Option View} {tells : Telling}
  {told : NodeId → String → View → List Event}

/-- Fragments are made with owners before what they own. -/
def BuildsPreceding (build : Build) : Prop :=
  ∀ (scope : Scope) (html : List Char) (v : View), v.document.WellFormed → v.document.OwnersPrecede →
    (build scope html v).2.document.OwnersPrecede

section

variable (hb : BuildsAside build tells) (hp : BuildsPreceding build)
include hb hp

theorem ownersPrecede_showGroup (hd : v.document.WellFormed) (h : v.document.OwnersPrecede)
    (hm : v.document.Under marker p) (g : ConditionGroup) :
    (v.showGroup build o scope marker g).document.OwnersPrecede := by
  have hcleared := h.clearOwned hd hm
  unfold showGroup
  simp only
  split
  · exact hcleared
  · rename_i b _
    split
    · exact hcleared
    · have hd0 := (hd.clearOwned marker).1.wellFormed
      have hnew := hb scope b.content.toList
        { v with document := (v.document.clearOwned marker).2 } hd0
      have hbuilt := hp scope b.content.toList
        { v with document := (v.document.clearOwned marker).2 } hd0 hcleared
      exact hnew.toAside.ownersPrecede_insertOwned hd0 hbuilt (hd.under_clearOwned_parent hm)

theorem ownersPrecede_addItems (o : ViewOptions) (scope : Scope) (l : LoopDefinition) {d : Document}
    (hd : d.WellFormed) : ∀ (items : List Value) (i : Nat) (v : View) {ops : List Operation},
      AsideBy target ops d v.document → v.document.OwnersPrecede →
        (addItems build o scope l target i items v).document.OwnersPrecede
  | [], _, _, _, _, hv => hv
  | item :: items, i, v, ops, h, hv => by
    have hitem := hb (itemScope scope l i item) (v.records.body o.depth l i).1
      { v with records := (v.records.body o.depth l i).2 } h.wellFormed
    have hbuilt := hp (itemScope scope l i item) (v.records.body o.depth l i).1
      { v with records := (v.records.body o.depth l i).2 } h.wellFormed hv
    rw [addItems_cons]
    exact ownersPrecede_addItems o scope l hd items (i + 1) _
      (h.confined (hitem.appendFragment h.wellFormed h.toAside.live) hd)
      (hitem.toAside.ownersPrecede_appendFragment h.wellFormed hbuilt h.toAside.live)

theorem ownersPrecede_showLoop (hd : v.document.WellFormed) (h : v.document.OwnersPrecede)
    (hm : v.document.Under marker p) (l : LoopDefinition) (items : List Value) :
    (v.showLoop build o scope marker l items).document.OwnersPrecede := by
  have hd0 := (hd.clearOwned marker).1.wellFormed
  have hcleared := h.clearOwned hd hm
  have hfragment := AsideBy.createFragment hd0 []
  have hitems := asideBy_addItems hb o scope l hd0 items 0
    { v with document := ((v.document.clearOwned marker).2.createFragment []).2 } hfragment
  have hbuilt := ownersPrecede_addItems hb hp o scope l hd0 items 0
    { v with document := ((v.document.clearOwned marker).2.createFragment []).2 } hfragment
    (hcleared.createFragment hd0 [])
  rw [document_showLoop]
  exact hitems.toAside.ownersPrecede_insertOwned hd0 hbuilt (hd.under_clearOwned_parent hm)

end

/-- A group or loop is shown with owners before what they own. -/
def ShowsPreceding (shows : NodeId → String → View → Option View) : Prop :=
  ∀ (id p : NodeId) (name : String) (v v' : View), v.document.WellFormed → v.document.OwnersPrecede →
    v.document.Under id p → shows id name v = some v' → v'.document.OwnersPrecede

theorem showsPreceding_group (o : ViewOptions) (scope : Scope) (up : Update) (hb : BuildsAside build tells)
    (hp : BuildsPreceding build) : ShowsPreceding (groupShower build o scope up) :=
  fun id p name v v' hd h hm hv => by
    obtain ⟨g, -, -, rfl⟩ := groupShower_eq_some hv
    exact ownersPrecede_showGroup hb hp hd h hm g

theorem showsPreceding_loop (o : ViewOptions) (scope : Scope) (up : Update) (hb : BuildsAside build tells)
    (hp : BuildsPreceding build) : ShowsPreceding (loopShower build o scope up) :=
  fun id p name v v' hd h hm hv => by
    obtain ⟨l, items, -, -, -, rfl⟩ := loopShower_eq_some hv
    exact ownersPrecede_showLoop hb hp hd h hm l items

theorem ownersPrecede_markers (kind : DirectiveKind) (under : NodeId) (hshows : ShowsByReplacing shows told)
    (hp : ShowsPreceding shows) : ∀ (ns : List (NodeId × String)) {v : View}, v.document.WellFormed →
      v.document.OwnersPrecede → (ns.foldl (markerStep kind shows under) v).document.OwnersPrecede
  | [], _, _, h => h
  | n :: ns, v, hd, h => by
    rw [List.foldl_cons]
    rcases markerStep_cases kind shows under v n with heq | ⟨m, v', -, -, hbelow, hv, heq⟩ <;> rw [heq]
    · exact ownersPrecede_markers kind under hshows hp ns hd h
    · rw [hd.isDescendant_iff] at hbelow
      obtain ⟨q, hq, -⟩ := TransGen.head'_iff.mp hbelow
      obtain ⟨rest, -, hrest⟩ := hshows.shown n.1 q m.name v v' hd hq hv
      exact ownersPrecede_markers kind under hshows hp ns (hrest.confined q (.single hq)).wellFormed
        (hp n.1 q m.name v v' hd h hq hv)

/-- Showing a state below a node leaves owners before what they own. -/
theorem ownersPrecede_showWith (o : ViewOptions) (scope : Scope) (up : Update) (hb : BuildsAside build tells)
    (hp : BuildsPreceding build) (hd : v.document.WellFormed) (hu : v.document.Live under)
    (h : v.document.OwnersPrecede) : (v.showWith build o scope up under).2.document.OwnersPrecede := by
  have ha := confinedBy_markers .condition under (showsByReplacing_group o scope up hb)
    (v.document.comments under) hd
  have h1 := ownersPrecede_markers .condition under (showsByReplacing_group o scope up hb)
    (showsPreceding_group o scope up hb hp) (v.document.comments under) hd h
  rw [← showGroups_snd] at ha h1
  have hloops := showsByReplacing_loop o scope up (v.showGroups build o scope up under).2.document hb
  have hb' := confinedBy_markers .loop under hloops
    ((v.showGroups build o scope up under).2.document.comments under) ha.wellFormed
  have h2 := ownersPrecede_markers .loop under hloops (showsPreceding_loop o scope up hb hp)
    ((v.showGroups build o scope up under).2.document.comments under) ha.wellFormed h1
  rw [← showLoops_snd] at hb' h2
  have hlive := (ha.append hb' hd).toConfined.keeps.live ⟨hu, hd.acyclic under⟩ hu
  have hc := hb'.wellFormed.confinedBy_showTexts o scope up hlive
  have h3 := h2.showTexts hb'.wellFormed o scope up
    (((v.showGroups build o scope up under).2.showLoops build o scope up under).2.document.elements under)
  rw [← showTexts_eq] at h3
  have h4 := h3.updateElements hc.wellFormed (newAttributes o scope up)
    ((((v.showGroups build o scope up under).2.showLoops build o scope up under).2.document.showTexts
      o.namesItems scope up under).2.elements under)
  rw [← showAttributes_eq] at h4
  rw [showWith_snd]
  dsimp only
  exact h4

theorem ownersPrecede_newFragment (o : ViewOptions) (html : List Char) (hd : v.document.WellFormed)
    (h : v.document.OwnersPrecede) : (v.newFragment o html).2.document.OwnersPrecede := by
  have hmade := h.createFragment hd html
  unfold newFragment
  dsimp only
  split
  · exact hmade.updateElements (hd.aside_createFragment html).wellFormed Element.completeHandlers _
  · exact hmade

theorem buildsPreceding_build (o : ViewOptions) : ∀ fuel, BuildsPreceding (View.build o fuel)
  | 0 => fun _ html _ hd h => ownersPrecede_newFragment o html hd h
  | fuel + 1 => fun scope html v hd h => by
    have hnew := asideBy_newFragment o html hd
    rw [build_succ]
    dsimp only
    exact ownersPrecede_showWith o scope .all (buildsAside_build o fuel) (buildsPreceding_build o fuel)
      hnew.wellFormed hnew.toAside.live (ownersPrecede_newFragment o html hd h)

theorem ownersPrecede_render (o : ViewOptions) (scope : Scope) (up : Update)
    (hd : v.document.WellFormed) (h : v.document.OwnersPrecede) :
    (v.render o scope up).2.document.OwnersPrecede := by
  obtain ⟨s, hs, -⟩ := hd.rooted
  unfold render showUnder
  split
  · exact h
  · exact ownersPrecede_showWith o scope up (buildsAside_build o _) (buildsPreceding_build o _) hd
      hs.live h

/-- After any number of passes owners stand before what they own. -/
theorem ownersPrecede_renderAll (o : ViewOptions) : ∀ (passes : List (Scope × Update)) {v : View},
    v.document.WellFormed → v.document.OwnersPrecede →
      (v.renderAll o passes).document.WellFormed ∧ (v.renderAll o passes).document.OwnersPrecede
  | [], _, hd, h => ⟨hd, h⟩
  | p :: passes, v, hd, h => by
    have hops := confinedBy_render o p.1 p.2 hd
    exact ownersPrecede_renderAll o passes hops.wellFormed (ownersPrecede_render o p.1 p.2 hd h)

end View

end LiveMarkup
