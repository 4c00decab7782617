import LiveMarkup.Proofs.Document.Stocked
import LiveMarkup.Proofs.Page.Handlers
import LiveMarkup.Proofs.Page.Spared

/-!
# Loops show one instance for each item

Whatever is made of markup, the topmost nodes of the markup stay the children without an owner of the
fragment that is made (`buildsStocked_build`).  So the items of a loop come to stand after its marker
one after the other (`shown_showLoop`).  There they stay while other markers have their turns, as long as
the marker is there (`remains_markers`).
-/

namespace LiveMarkup

open Relation

namespace View

open Document Operation

variable {build : Build} {o : ViewOptions} {scope : Scope} {up : Update} {v : View}
  {p m under marker target F : NodeId} {kind : DirectiveKind}
  {shows : NodeId → String → View → Option View} {tells : Telling}
  {told : NodeId → String → View → List Event} {d : Document} {ls : List NodeData}
  {l : LoopDefinition}

/-! ## Making instances -/

/-- The topmost nodes of markup stay what they are in the fragment that is made of it. -/
def BuildsStocked (build : Build) : Prop :=
  ∀ (scope : Scope) (html : List Char) (v : View), v.document.WellFormed →
    Stocked (build scope html v).1 (topLooks html) v.document (build scope html v).2.document

theorem filled_showGroup (hb : BuildsStocked build) (hd : v.document.WellFormed)
    (hm : v.document.Under marker p) (g : ConditionGroup) :
    Filled marker (v.document.clearOwned marker).2 (v.showGroup build o scope marker g).document := by
  have hd0 := (hd.clearOwned marker).1.wellFormed
  unfold showGroup
  simp only
  split
  · exact .refl hd0 marker
  · rename_i b _
    split
    · exact .refl hd0 marker
    · exact (hb scope b.content.toList { v with document := (v.document.clearOwned marker).2 }
        hd0).filled hd0 (hd.under_clearOwned_parent hm)

/-- The items of a loop are added one after the other, each as its markup says. -/
theorem stocked_addItems (hb : BuildsStocked build) (hx : BuildsExtending build) (scope : Scope)
    (l : LoopDefinition) (hd : d.WellFormed) (r : Records) : ∀ (items : List Value) (i : Nat)
      (v : View) {ls : List NodeData}, Stocked target ls d v.document →
        (addItems build o scope l target i items v).records.Extends r →
          Stocked target
            (ls ++ (List.range' i items.length).flatMap fun j => topLooks (r.body o.depth l j).1) d
            (addItems build o scope l target i items v).document
  | [], i, v, ls, h, _ => by
    rw [List.length_nil, List.range'_zero, List.flatMap_nil, List.append_nil]
    exact h
  | item :: items, i, v, ls, h, hr => by
    have hitem := hb (itemScope scope l i item) (v.records.body o.depth l i).1
      { v with records := (v.records.body o.depth l i).2 } h.wellFormed
    have hbuild := hx (itemScope scope l i item) (v.records.body o.depth l i).1
      { v with records := (v.records.body o.depth l i).2 }
    rw [addItems_cons] at hr ⊢
    rcases hv : build (itemScope scope l i item) (v.records.body o.depth l i).1
      { v with records := (v.records.body o.depth l i).2 } with ⟨fragment, v'⟩
    rw [hv] at hitem hbuild hr
    have hnext := extends_addItems (o := o) hx scope l target items (i + 1)
      { v' with document := v'.document.appendFragment target fragment }
    have hbody : (r.body o.depth l i).1 = (v.records.body o.depth l i).1 :=
      ((hbuild.trans hnext).trans hr).body_eq
    rw [List.length_cons, List.range'_succ, List.flatMap_cons, hbody, ← List.append_assoc]
    exact stocked_addItems hb hx scope l hd r items (i + 1) _ (h.appendFragment hd hitem) hr

/-- The contents of the items that are added are recorded. -/
theorem placed_addItems (hx : BuildsExtending build) (scope : Scope) (l : LoopDefinition)
    (target : NodeId) {r : Records} : ∀ (items : List Value) (i : Nat) (v : View),
      (addItems build o scope l target i items v).records.Extends r → ∀ j < items.length,
        ∃ html, r.bodies.lookup (Placement.ofLoop l (i + j)).place = some html
  | [], _, _, _, _, hj => absurd hj (Nat.not_lt_zero _)
  | item :: items, i, v, hr, j, hj => by
    rw [addItems_cons] at hr
    cases j with
    | zero =>
      have hbuild := hx (itemScope scope l i item) (v.records.body o.depth l i).1
        { v with records := (v.records.body o.depth l i).2 }
      have hnext := (extends_addItems (o := o) hx scope l target items (i + 1) _).trans hr
      exact ⟨_, (hbuild.trans hnext).bodies _ _ (v.records.lookup_body o.depth l i)⟩
    | succ j =>
      obtain ⟨html, h⟩ := placed_addItems hx scope l target items (i + 1) _ hr j
        (Nat.lt_of_succ_lt_succ hj)
      exact ⟨html, by rwa [Nat.add_right_comm] at h⟩

/-- What a loop shows after its marker. -/
theorem shown_showLoop (hb : BuildsStocked build) (hx : BuildsExtending build)
    (hd : v.document.WellFormed) (hm : v.document.Under marker p) (l : LoopDefinition)
    (items : List Value) :
    Filled marker (v.document.clearOwned marker).2 (v.showLoop build o scope marker l items).document ∧
      ∀ r : Records, (v.showLoop build o scope marker l items).records.Extends r →
        (v.showLoop build o scope marker l items).document.looks
          ((v.showLoop build o scope marker l items).document.instances marker) =
            (List.range items.length).flatMap fun i => topLooks (r.body o.depth l i).1 := by
  have hd0 := (hd.clearOwned marker).1.wellFormed
  have hm0 := hd.under_clearOwned_parent hm
  have hnew := hd0.stocked_createFragment []
  have hempty : topLooks [] = [] := rfl
  rw [hempty] at hnew
  have hitems := fun r => stocked_addItems (o := o) hb hx scope l hd0 r items 0
    { v with document := ((v.document.clearOwned marker).2.createFragment []).2 } hnew
  rw [document_showLoop]
  refine ⟨(hitems _ (.refl _)).filled hd0 hm0, fun r hr => ?_⟩
  rw [(hitems r hr).looks_insertOwned hd0 hm0 (hd.instances_clearOwned hm.live), List.nil_append,
    List.range_eq_range']

/-- A group or loop is shown by putting content that was made aside after its marker. -/
def ShowsByFilling (shows : NodeId → String → View → Option View) : Prop :=
  ∀ (id p : NodeId) (name : String) (v v' : View), v.document.WellFormed → v.document.Under id p →
    shows id name v = some v' → Filled id (v.document.clearOwned id).2 v'.document

theorem showsByFilling_group (o : ViewOptions) (scope : Scope) (up : Update)
    (hb : BuildsStocked build) : ShowsByFilling (groupShower build o scope up) :=
  fun id p name v v' hd hm hv => by
    obtain ⟨g, -, -, rfl⟩ := groupShower_eq_some hv
    exact filled_showGroup hb hd hm g

theorem showsByFilling_loop (o : ViewOptions) (scope : Scope) (up : Update)
    (hb : BuildsStocked build) (hx : BuildsExtending build) :
    ShowsByFilling (loopShower build o scope up) := fun id p name v v' hd hm hv => by
  obtain ⟨l, items, -, -, -, rfl⟩ := loopShower_eq_some hv
  exact (shown_showLoop hb hx hd hm l items).1

/-! ## Showing a state in a fragment -/

theorem stocked_markers (kind : DirectiveKind) (hreplaces : ShowsByReplacing shows told)
    (hfills : ShowsByFilling shows) (hd : d.WellFormed) : ∀ (ns : List (NodeId × String)) {v : View},
      Stocked F ls d v.document →
        Stocked F ls d (ns.foldl (markerStep kind shows F) v).document
  | [], _, h => h
  | n :: ns, v, h => by
    rw [List.foldl_cons]
    refine stocked_markers kind hreplaces hfills hd ns ?_
    rcases markerStep_cases kind shows F v n with heq | ⟨marker, v', -, -, hbelow, hv, heq⟩ <;> rw [heq]
    · exact h
    · rw [h.wellFormed.isDescendant_iff] at hbelow
      obtain ⟨q, hq, -⟩ := TransGen.head'_iff.mp hbelow
      obtain ⟨rest, -, hrest⟩ := hreplaces.shown n.1 q marker.name v v' h.wellFormed hq hv
      exact h.refill hd hbelow (hrest.confined F hbelow)
        (hfills n.1 q marker.name v v' h.wellFormed hq hv)

theorem stocked_texts (o : ViewOptions) (scope : Scope) (up : Update) (hd : d.WellFormed) :
    ∀ (xs : List NodeId) {d1 : Document}, Stocked F ls d d1 →
      (∀ x ∈ xs, d1.Live x → TransGen d1.Under x F) →
        Stocked F ls d (xs.foldl (fun d n => (d.showText o.namesItems scope up n).2) d1)
  | [], _, h, _ => h
  | x :: xs, d1, h, hxs => by
    rw [List.foldl_cons]
    have hrest := fun y hy => hxs y (List.mem_cons_of_mem x hy)
    rcases h.wellFormed.showText_cases o scope up x with
      ⟨heq, -⟩ | ⟨text, html, hx, -, -, heq, -⟩ <;> rw [heq]
    · exact stocked_texts o scope up hd xs h hrest
    · have hxF := hxs x List.mem_cons_self hx
      have hconf := (h.wellFormed.confined_setInnerHtml hx html).widen h.wellFormed hxF
      exact stocked_texts o scope up hd xs (h.setInnerHtml hd hxF html)
        fun y hy => hconf.below (hrest y hy)

theorem tag_newAttributes (o : ViewOptions) (scope : Scope) (up : Update) (e : Element) :
    (newAttributes o scope up e).tag = e.tag :=
  (e.agreesBut_newAttributes o scope up).tag

/-- What is shown in a fragment leaves its children without an owner alone. -/
theorem stocked_showWith (o : ViewOptions) (scope : Scope) (up : Update) (ha : BuildsAside build tells)
    (hb : BuildsStocked build) (hx : BuildsExtending build) (hd : d.WellFormed)
    (h : Stocked F ls d v.document) :
    Stocked F ls d (v.showWith build o scope up F).2.document := by
  have h1 := stocked_markers .condition (showsByReplacing_group o scope up ha)
    (showsByFilling_group o scope up hb) hd (v.document.comments F) h
  rw [← showGroups_snd] at h1
  have h2 := stocked_markers .loop
    (showsByReplacing_loop o scope up (v.showGroups build o scope up F).2.document ha)
    (showsByFilling_loop o scope up hb hx) hd
    ((v.showGroups build o scope up F).2.document.comments F) h1
  rw [← showLoops_snd] at h2
  have h3 := stocked_texts o scope up hd
    (((v.showGroups build o scope up F).2.showLoops build o scope up F).2.document.elements F) h2
    fun x hx _ => ((h2.wellFormed.mem_elements_iff h2.toAside.live).mp hx).1
  rw [← showTexts_eq] at h3
  have hconf := h3.wellFormed.confinedBy_showAttributes o scope up h3.toAside.live
  have h4 := h3.restyled hd hconf.toConfined (by
    rw [showAttributes_eq]
    exact .updateElements (tag_newAttributes o scope up) _ _)
  rw [showWith_snd]
  dsimp only
  exact h4

theorem stocked_newFragment (o : ViewOptions) (html : List Char) (hd : v.document.WellFormed) :
    Stocked (v.newFragment o html).1 (topLooks html) v.document (v.newFragment o html).2.document := by
  have h := hd.stocked_createFragment html
  unfold newFragment
  dsimp only
  split
  · have hconf := h.wellFormed.confinedBy_updateElements Element.completeHandlers
      ((v.document.createFragment html).2.elements (v.document.createFragment html).1)
      fun x => h.wellFormed.below_of_mem_elements h.toAside.live
    refine h.restyled hd hconf.toConfined (.updateElements (fun e => ?_) _ _)
    exact Element.completeHandlers_induction (P := fun e' => e'.tag = e.tag) rfl fun _ _ _ _ h => h
  · exact h

theorem buildsStocked_build (o : ViewOptions) : ∀ fuel, BuildsStocked (View.build o fuel)
  | 0 => fun _ html _ hd => stocked_newFragment o html hd
  | fuel + 1 => fun scope html v hd => by
    rw [build_succ]
    dsimp only
    exact stocked_showWith o scope .all (buildsAside_build o fuel) (buildsStocked_build o fuel)
      (buildsExtending_build o fuel) hd (stocked_newFragment o html hd)

/-! ## While a marker stays -/

/-- Other markers have their turns while a marker stays. -/
theorem remains_markers (hreplaces : ShowsByReplacing shows told) (hfills : ShowsByFilling shows) :
    ∀ (ns : List (NodeId × String)) {v : View}, v.document.WellFormed → (∀ n ∈ ns, n.1 ≠ m) →
      m ∈ Stays v.document (operations (markersEvents kind shows told under ns v)) →
        Remains m v.document (ns.foldl (markerStep kind shows under) v).document
  | [], _, hd, _, _ => .refl hd m
  | n :: ns, v, hd, hne, hm => by
    rw [markersEvents, operations_append] at hm
    obtain ⟨hm, hrest⟩ := mem_stays_append.mp hm
    have hconf := confinedBy_markerStep kind under hreplaces hd n
    rw [hconf.run_eq] at hrest
    rw [List.foldl_cons]
    have hstep : Remains m v.document (markerStep kind shows under v n).document := by
      rcases turn_cases kind shows told under v n with ⟨heq, -⟩ | ⟨marker, -, -, hbelow, heq, he⟩ <;>
        rw [heq]
      · exact .refl hd m
      · rcases hv : shows n.1 marker.name v with _ | v'
        · exact .refl hd m
        · rw [hd.isDescendant_iff] at hbelow
          obtain ⟨q, hq, -⟩ := TransGen.head'_iff.mp hbelow
          obtain ⟨rest, hops, -⟩ := hreplaces.shown n.1 q marker.name v v' hd hq hv
          rw [he, hops] at hm
          have hcleared := live_of_mem_stays (mem_stays_cons.mp hm).2
          exact (hfills n.1 q marker.name v v' hd hq hv).remains hd hcleared
            (hne n List.mem_cons_self).symm
    exact hstep.trans (remains_markers hreplaces hfills ns hstep.wellFormed
      (fun n' hn' => hne n' (List.mem_cons_of_mem n hn')) hrest) hd (live_of_mem_stays hm)

/-- The same comment is not found twice. -/
theorem comments_pairwise (hd : d.WellFormed) (hu : d.Live under) :
    (d.comments under).Pairwise fun a b => a.1 ≠ b.1 := by
  have hnd := (List.nodup_cons.mp (hd.nodup_descendants hu)).2
  refine List.Pairwise.filterMap _ (fun a b hab a' ha b' hb => ?_) hnd
  obtain ⟨_, -, rfl⟩ := Option.map_eq_some_iff.mp ha
  obtain ⟨_, -, rfl⟩ := Option.map_eq_some_iff.mp hb
  exact hab

theorem live_of_mem_comments {n : NodeId × String} (hd : d.WellFormed) (hn : n ∈ d.comments under) :
    d.Live under ∧ d.Live n.1 := by
  obtain ⟨c, hc, htext⟩ := List.mem_filterMap.mp hn
  obtain ⟨_, -, rfl⟩ := Option.map_eq_some_iff.mp htext
  have hu : d.Live under := by
    by_contra hu
    unfold descendants at hc
    cases hcap : d.capacity <;> rw [hcap] at hc
    · cases hc
    · rw [descendantsTo, hd.children_of_not_live hu] at hc
      cases hc
  exact ⟨hu, live_of_below ((hd.mem_descendants_iff hu).mp hc)⟩

end View

end LiveMarkup
