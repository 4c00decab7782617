import LiveMarkup.Proofs.Page.Trace

/-!
# A pass leaves no node behind

New content is made aside, below a fragment of its own, and goes after its marker before the next
marker has its turn; what it takes the place of is removed (`replaces_showGroup`,
`replaces_showLoop`).  So each step of a pass is confined to the node below which a state is shown
(`confinedBy_showWith`), and if no node of a document was lost before a pass, none is lost after any
number of passes (`allAttached_renderAll`).

All this is proved of the operations in the trace of a pass, so that the trace of a pass leads to the
document that the pass leaves (`run_operations_trace`).
-/

namespace LiveMarkup

open Relation

namespace Document

variable {d : Document} {c u : NodeId}

theorem legal_updateData (hc : d.Live c) (f : NodeData → NodeData) :
    (Operation.updateData c f).Legal d :=
  ⟨fun x hx => by obtain rfl := List.mem_singleton.mp hx; exact hc.issued,
    fun _ _ hx => (List.not_mem_nil hx).elim⟩

/-- Changing an element through a handle that finds none changes nothing. -/
theorem WellFormed.updateElement_of_not_live (hd : d.WellFormed) (hc : ¬ d.Live c)
    (f : Element → Element) : d.updateElement c f = d := by
  rw [updateElement_eq]
  refine update_eq_self fun s hs => ?_
  rcases hd.slot?_cases hs with hs | ⟨g, rfl⟩
  · exact absurd hs.live hc
  · rfl

/-- Changing elements below a node, one after the other. -/
theorem WellFormed.confinedBy_updateElements (f : Element → Element) : ∀ (xs : List NodeId)
    {d : Document}, d.WellFormed → (∀ x ∈ xs, TransGen d.Under x u) →
      ConfinedBy u (xs.map fun x => .updateData x fun data => data.mapElement f) d
        (xs.foldl (fun d n => d.updateElement n f) d)
  | [], d, hd, _ => .nil hd u
  | x :: xs, d, hd, hxs => by
    have hxu := hxs x List.mem_cons_self
    have hx := live_of_below hxu
    have hr := rewrites_update (f := fun s => { s with data := s.data.mapElement f }) (fun _ => rfl) hx
    have h : Confined u d (d.updateElement x f) := by
      rw [updateElement_eq]
      exact hd.confined_update (fun _ => hxu) (fun _ => hx) (fun _ => rfl) (fun _ => rfl) fun _ => rfl
    have hstep : ConfinedBy u [.updateData x fun data => data.mapElement f] d (d.updateElement x f) :=
      .single _ h (legal_updateData hx _)
    rw [← updateElement_eq] at hr
    exact hstep.append (WellFormed.confinedBy_updateElements f xs h.wellFormed fun y hy =>
      have hyu := hxs y (List.mem_cons_of_mem x hy)
      h.below (fun _ => hyu) (hr.live_iff.mpr (live_of_below hyu))) hd

theorem WellFormed.below_of_mem_elements (hd : d.WellFormed) (hu : d.Live u) {x : NodeId}
    (hx : x ∈ d.elements u) : TransGen d.Under x u :=
  ((hd.mem_elements_iff hu).mp hx).1

variable (o : ViewOptions) (scope : Scope) (up : Update)

/-- A text binding is shown in a live element, or nothing is. -/
theorem WellFormed.showText_cases (hd : d.WellFormed) (c : NodeId) :
    ((d.showText o.namesItems scope up c).2 = d ∧ View.textEvents o scope up d c = []) ∨
      ∃ text html, d.Live c ∧ d.attribute? c (String.ofList textBinding) = some text ∧
        up.meetsText text.toList = true ∧
        (d.showText o.namesItems scope up c).2 = d.setInnerHtml c html ∧
        View.textEvents o scope up d c = [.operation (.setInnerHtml c html)] := by
  unfold showText View.textEvents
  rcases htext : d.attribute? c (String.ofList textBinding) with _ | text
  · exact .inl ⟨rfl, rfl⟩
  · simp only
    by_cases hmeets : up.meetsText text.toList = true
    · rw [if_pos hmeets, if_pos hmeets]
      refine .inr ⟨text, _, ?_, rfl, hmeets, rfl, rfl⟩
      obtain ⟨e, he, -⟩ := Option.bind_eq_some_iff.mp htext
      rcases hs : d.slot? c with _ | s
      · simp [element?, data, hs, NodeData.element?] at he
      · rcases hd.slot?_cases hs with hs | ⟨g, rfl⟩
        · exact hs.live
        · simp [element?, data, hs, NodeData.element?] at he
    · rw [if_neg hmeets, if_neg hmeets]
      exact .inl ⟨rfl, rfl⟩

theorem WellFormed.confinedBy_showText (hd : d.WellFormed) (hc : d.Live c → TransGen d.Under c u) :
    ConfinedBy u (View.operations (View.textEvents o scope up d c)) d
      (d.showText o.namesItems scope up c).2 := by
  rcases hd.showText_cases o scope up c with ⟨h, he⟩ | ⟨text, html, hlive, -, -, h, he⟩ <;> rw [h, he]
  · exact .nil hd u
  · exact .single (.setInnerHtml c html)
      ((hd.confined_setInnerHtml hlive html).widen hd (hc hlive)) (legal_setInnerHtml hlive html)

/-- Showing texts of elements below a node, one after the other. -/
theorem WellFormed.confinedBy_texts : ∀ (xs : List NodeId) {d : Document}, d.WellFormed →
    (∀ x ∈ xs, d.Live x → TransGen d.Under x u) →
      ConfinedBy u (View.operations (View.textsEvents o scope up xs d)) d
        (xs.foldl (fun d n => (d.showText o.namesItems scope up n).2) d)
  | [], d, hd, _ => .nil hd u
  | x :: xs, d, hd, hxs => by
    have hstep := hd.confinedBy_showText o scope up (hxs x List.mem_cons_self)
    rw [View.textsEvents, View.operations_append, List.foldl_cons]
    exact hstep.append (WellFormed.confinedBy_texts xs hstep.wellFormed fun y hy =>
      hstep.toConfined.below (hxs y (List.mem_cons_of_mem x hy))) hd

theorem WellFormed.confinedBy_showTexts (hd : d.WellFormed) (hu : d.Live u) :
    ConfinedBy u (View.operations (View.textsEvents o scope up (d.elements u) d)) d
      (d.showTexts o.namesItems scope up u).2 := by
  rw [showTexts_eq]
  exact hd.confinedBy_texts o scope up _ fun x hx _ => hd.below_of_mem_elements hu hx

theorem WellFormed.confinedBy_showAttributes (hd : d.WellFormed) (hu : d.Live u) :
    ConfinedBy u (View.operations
      (View.elementEvents (View.newAttributes o scope up) (d.elements u))) d
      (d.showAttributes o.namesItems scope up u).2 := by
  rw [showAttributes_eq, View.operations_elementEvents]
  exact hd.confinedBy_updateElements _ _ fun x => hd.below_of_mem_elements hu

end Document

namespace View

open Document

variable {build : Build} {tells : Telling} {o : ViewOptions} {scope : Scope} {up : Update} {v : View}
  {p under marker target : NodeId} {kind : DirectiveKind}
  {shows : NodeId → String → View → Option View} {told : NodeId → String → View → List Event}

/-- Every fragment is made aside, by the operations that are told. -/
def BuildsAside (build : Build) (tells : Telling) : Prop :=
  ∀ (scope : Scope) (html : List Char) (v : View), v.document.WellFormed →
    AsideBy (build scope html v).1 (operations (tells scope html v)) v.document
      (build scope html v).2.document

/-! ## Markers -/

theorem replaces_showGroup (hb : BuildsAside build tells) (hd : v.document.WellFormed)
    (hm : v.document.Under marker p) (g : ConditionGroup) :
    ∃ rest, operations (groupEvents build tells o scope marker g v) = .clearOwned marker :: rest ∧
      Replaces marker rest v.document (v.showGroup build o scope marker g).document := by
  have hnone := hd.replaces_nil hm.live
  unfold showGroup groupEvents
  simp only [operations_operation]
  refine ⟨_, rfl, ?_⟩
  rcases chosenBlock o scope g with _ | b
  · exact hnone
  · simp only
    by_cases hblank : Text.trim b.content.toList = []
    · rw [if_pos hblank, if_pos hblank]
      exact hnone
    · rw [if_neg hblank, if_neg hblank, operations_append, operations_operation]
      have hnew := hb scope b.content.toList { v with document := (v.document.clearOwned marker).2 }
        (hd.clearOwned marker).1.wellFormed
      exact hnew.replaces hd hm

theorem addItems_cons (build : Build) (o : ViewOptions) (scope : Scope) (l : LoopDefinition)
    (target : NodeId) (i : Nat) (item : Value) (items : List Value) (v : View) :
    addItems build o scope l target i (item :: items) v =
      addItems build o scope l target (i + 1) items
        { (build (itemScope scope l i item) (v.records.body o.depth l i).1
            { v with records := (v.records.body o.depth l i).2 }).2 with
          document := (build (itemScope scope l i item) (v.records.body o.depth l i).1
            { v with records := (v.records.body o.depth l i).2 }).2.document.appendFragment target
              (build (itemScope scope l i item) (v.records.body o.depth l i).1
                { v with records := (v.records.body o.depth l i).2 }).1 } := by
  rw [addItems]

/-- The items of a loop are added below the fragment that is made for them. -/
theorem asideBy_addItems (hb : BuildsAside build tells) (o : ViewOptions) (scope : Scope)
    (l : LoopDefinition) {d : Document} (hd : d.WellFormed) :
    ∀ (items : List Value) (i : Nat) (v : View) {ops : List Operation},
      AsideBy target ops d v.document →
        AsideBy target (ops ++ operations (itemEvents build tells o scope l target i items v)) d
          (addItems build o scope l target i items v).document
  | [], _, _, ops, h => by
    rw [itemEvents, operations_nil, List.append_nil]
    exact h
  | item :: items, i, v, ops, h => by
    have hitem := hb (itemScope scope l i item) (v.records.body o.depth l i).1
      { v with records := (v.records.body o.depth l i).2 } h.wellFormed
    rw [addItems_cons, itemEvents, operations_append, operations_operation, List.append_cons,
      ← List.append_assoc, ← List.append_assoc, List.append_assoc ops]
    exact asideBy_addItems hb o scope l hd items (i + 1) _
      (h.confined (hitem.appendFragment h.wellFormed h.toAside.live) hd)

theorem document_showLoop (build : Build) (o : ViewOptions) (scope : Scope) (marker : NodeId)
    (l : LoopDefinition) (items : List Value) (v : View) :
    (v.showLoop build o scope marker l items).document =
      ((addItems build o scope l ((v.document.clearOwned marker).2.createFragment []).1 0 items
        { v with
          document := ((v.document.clearOwned marker).2.createFragment []).2 }).document.insertOwned
            marker ((v.document.clearOwned marker).2.createFragment []).1).2 := by
  unfold showLoop
  simp only

theorem replaces_showLoop (hb : BuildsAside build tells) (hd : v.document.WellFormed) (t : Turn)
    (hm : v.document.Under t.marker p) (items : List Value) :
    ∃ rest, operations (loopEvents build tells o t items v) = .clearOwned t.marker :: rest ∧
      Replaces t.marker rest v.document
        (v.showLoop build o t.scope t.marker t.loop items).document := by
  have hd0 := (hd.clearOwned t.marker).1.wellFormed
  have hitems := asideBy_addItems hb o t.scope t.loop hd0 items 0
    { v with document := ((v.document.clearOwned t.marker).2.createFragment []).2 }
    (AsideBy.createFragment hd0 [])
  rw [document_showLoop]
  refine ⟨_, ?_, hitems.replaces hd hm⟩
  simp only [loopEvents, operations_operation, operations_loop, operations_append, operations_nil,
    List.cons_append, List.nil_append]

/-- At its turn a comment shows what its marker names, or nothing happens. -/
theorem turn_cases (kind : DirectiveKind) (shows : NodeId → String → View → Option View)
    (told : NodeId → String → View → List Event) (under : NodeId) (v : View) (n : NodeId × String) :
    (markerStep kind shows under v n = v ∧ markerEvents kind told under v n = []) ∨
      ∃ m, Marker.ofComment? n.2 = some m ∧ m.kind = kind ∧
        v.document.isDescendant under n.1 = true ∧
        markerStep kind shows under v n = (shows n.1 m.name v).getD v ∧
        markerEvents kind told under v n = told n.1 m.name v := by
  unfold markerStep markerEvents
  rcases hm : Marker.ofComment? n.2 with _ | m
  · exact .inl ⟨rfl, rfl⟩
  · simp only
    by_cases hcond : (decide (m.kind = kind) && v.document.isDescendant under n.1) = true
    · obtain ⟨hkind, hbelow⟩ := (Bool.and_eq_true _ _).mp hcond
      rw [if_pos hcond, if_pos hcond]
      exact .inr ⟨m, rfl, of_decide_eq_true hkind, hbelow, rfl, rfl⟩
    · rw [if_neg hcond, if_neg hcond]
      exact .inl ⟨rfl, rfl⟩

/-- When a marker has its turn, its content is replaced or nothing happens. -/
theorem markerStep_cases (kind : DirectiveKind) (shows : NodeId → String → View → Option View)
    (under : NodeId) (v : View) (n : NodeId × String) :
    markerStep kind shows under v n = v ∨
      ∃ m v', Marker.ofComment? n.2 = some m ∧ m.kind = kind ∧
        v.document.isDescendant under n.1 = true ∧ shows n.1 m.name v = some v' ∧
        markerStep kind shows under v n = v' := by
  rcases turn_cases kind shows (fun _ _ _ => []) under v n with ⟨h, -⟩ | ⟨m, hm, hkind, hbelow, h, -⟩
  · exact .inl h
  · rcases hv : shows n.1 m.name v with _ | v' <;> rw [hv] at h
    · exact .inl h
    · exact .inr ⟨m, v', hm, hkind, hbelow, hv, h⟩

/-- A group or loop is shown by replacing the content of its marker, as it is told. -/
structure ShowsByReplacing (shows : NodeId → String → View → Option View)
    (told : NodeId → String → View → List Event) : Prop where
  shown : ∀ (id p : NodeId) (name : String) (v v' : View), v.document.WellFormed →
    v.document.Under id p → shows id name v = some v' →
      ∃ rest, operations (told id name v) = .clearOwned id :: rest ∧
        Replaces id rest v.document v'.document
  idle : ∀ (id : NodeId) (name : String) (v : View), shows id name v = none →
    operations (told id name v) = []

theorem confinedBy_markerStep (kind : DirectiveKind) (under : NodeId)
    (hshows : ShowsByReplacing shows told) (hd : v.document.WellFormed) (n : NodeId × String) :
    ConfinedBy under (operations (markerEvents kind told under v n)) v.document
      (markerStep kind shows under v n).document := by
  rcases turn_cases kind shows told under v n with ⟨h, he⟩ | ⟨m, -, -, hbelow, h, he⟩ <;> rw [h, he]
  · exact .nil hd under
  · rcases hv : shows n.1 m.name v with _ | v'
    · rw [hshows.idle n.1 m.name v hv]
      exact .nil hd under
    · rw [hd.isDescendant_iff] at hbelow
      obtain ⟨q, hq, -⟩ := TransGen.head'_iff.mp hbelow
      obtain ⟨rest, hops, hrest⟩ := hshows.shown n.1 q m.name v v' hd hq hv
      rw [hops]
      exact hrest.confinedBy hbelow hd

theorem confinedBy_markers (kind : DirectiveKind) (under : NodeId)
    (hshows : ShowsByReplacing shows told) : ∀ (ns : List (NodeId × String)) {v : View},
      v.document.WellFormed →
        ConfinedBy under (operations (markersEvents kind shows told under ns v)) v.document
          (ns.foldl (markerStep kind shows under) v).document
  | [], _, hd => .nil hd under
  | n :: ns, v, hd => by
    have hstep := confinedBy_markerStep kind under hshows hd n
    rw [markersEvents, operations_append, List.foldl_cons]
    exact hstep.append (confinedBy_markers kind under hshows ns hstep.wellFormed) hd

theorem groupShower_eq_some {id : NodeId} {name : String} {v' : View}
    (h : groupShower build o scope up id name v = some v') : ∃ g, v.records.group? name = some g ∧
      up.meets g.vars = true ∧ v' = v.showGroup build o scope id g := by
  obtain ⟨g, hg, h⟩ := Option.bind_eq_some_iff.mp h
  split at h
  · rename_i hmeets
    exact ⟨g, hg, hmeets, (Option.some.inj h).symm⟩
  · cases h

theorem loopShower_eq_some {id : NodeId} {name : String} {v' : View}
    (h : loopShower build o scope up id name v = some v') :
    ∃ l items, v.records.loop? name = some l ∧ up.meets l.vars = true ∧
      (valueOf o.namesItems scope l.array.toList).items? = some items ∧
      v' = v.showLoop build o scope id l items := by
  obtain ⟨l, hl, h⟩ := Option.bind_eq_some_iff.mp h
  split at h
  · rename_i hmeets
    obtain ⟨items, hitems, h⟩ := Option.bind_eq_some_iff.mp h
    exact ⟨l, items, hl, hmeets, hitems, (Option.some.inj h).symm⟩
  · cases h

theorem showsByReplacing_group (o : ViewOptions) (scope : Scope) (up : Update)
    (hb : BuildsAside build tells) :
    ShowsByReplacing (groupShower build o scope up) (groupTeller build tells o scope up) where
  shown id p name v v' hd hm hv := by
    obtain ⟨g, hg, hmeets, rfl⟩ := groupShower_eq_some hv
    simp only [groupTeller, hg, hmeets, if_true]
    exact replaces_showGroup hb hd hm g
  idle id name v hv := by
    unfold groupTeller
    rcases hg : v.records.group? name with _ | g
    · rfl
    · by_cases hmeets : up.meets g.vars = true <;>
        simp_all [groupShower]

theorem showsByReplacing_loop (o : ViewOptions) (scope : Scope) (up : Update) (start : Document)
    (hb : BuildsAside build tells) :
    ShowsByReplacing (loopShower build o scope up) (loopTeller build tells o scope up start) where
  shown id p name v v' hd hm hv := by
    obtain ⟨l, items, hl, hmeets, hitems, rfl⟩ := loopShower_eq_some hv
    obtain ⟨rest, hops, hrest⟩ := replaces_showLoop (o := o) hb hd ⟨id, l, scope, start⟩ hm items
    refine ⟨rest, ?_, hrest⟩
    simp only [loopTeller, hl, hmeets, if_true, Turn.items?, hitems, hops]
  idle id name v hv := by
    unfold loopTeller
    rcases hl : v.records.loop? name with _ | l
    · rfl
    · by_cases hmeets : up.meets l.vars = true
      · rcases hitems : (valueOf o.namesItems scope l.array.toList).items? with _ | items <;>
          simp_all [loopShower, Turn.items?]
      · simp_all

theorem showGroups_snd (build : Build) (o : ViewOptions) (scope : Scope) (up : Update)
    (under : NodeId) (v : View) : (v.showGroups build o scope up under).2 =
      (v.document.comments under).foldl
        (markerStep .condition (groupShower build o scope up) under) v :=
  showMarkers_eq

theorem showLoops_snd (build : Build) (o : ViewOptions) (scope : Scope) (up : Update)
    (under : NodeId) (v : View) : (v.showLoops build o scope up under).2 =
      (v.document.comments under).foldl
        (markerStep .loop (loopShower build o scope up) under) v :=
  showMarkers_eq

/-! ## Passes -/

/-- The four steps, one after the other. -/
theorem showWith_snd (build : Build) (o : ViewOptions) (scope : Scope) (up : Update)
    (under : NodeId) (v : View) : (v.showWith build o scope up under).2 =
      { ((v.showGroups build o scope up under).2.showLoops build o scope up under).2 with
        document := ((((v.showGroups build o scope up under).2.showLoops build o scope up
          under).2.document.showTexts o.namesItems scope up under).2.showAttributes o.namesItems scope
            up under).2 } := by
  unfold showWith
  rfl

/-- Showing a state below a node changes nothing but what stands below that node. -/
theorem confinedBy_showWith (o : ViewOptions) (scope : Scope) (up : Update)
    (hb : BuildsAside build tells) (hd : v.document.WellFormed) (hu : v.document.Live under) :
    ConfinedBy under (operations (showEvents build tells o scope up under v)) v.document
      (v.showWith build o scope up under).2.document := by
  have hstays : ∀ {d : Document}, Confined under v.document d → d.Live under := fun h =>
    h.keeps.live ⟨hu, hd.acyclic under⟩ hu
  have ha := confinedBy_markers .condition under (showsByReplacing_group o scope up hb)
    (v.document.comments under) hd
  rw [← showGroups_snd] at ha
  have hb := confinedBy_markers .loop under
    (showsByReplacing_loop o scope up (v.showGroups build o scope up under).2.document hb)
    ((v.showGroups build o scope up under).2.document.comments under) ha.wellFormed
  rw [← showLoops_snd] at hb
  have hab := hstays (ha.append hb hd).toConfined
  have hc := hb.wellFormed.confinedBy_showTexts o scope up hab
  have habc := hstays ((ha.append hb hd).append hc hd).toConfined
  have he := hc.wellFormed.confinedBy_showAttributes o scope up habc
  have hall := ha.append (hb.append (hc.append he hb.wellFormed) ha.wellFormed) hd
  simp only [showEvents, operations_append]
  rw [showWith_snd]
  dsimp only
  exact hall

/-- A new fragment is made aside, and so its handlers are completed. -/
theorem asideBy_newFragment (o : ViewOptions) (html : List Char) (hd : v.document.WellFormed) :
    AsideBy (v.newFragment o html).1 (operations (newFragmentEvents o html v)) v.document
      (v.newFragment o html).2.document := by
  have h := AsideBy.createFragment hd html
  unfold newFragment newFragmentEvents
  dsimp only
  split
  · have hb := h.wellFormed.confinedBy_updateElements Element.completeHandlers
      ((v.document.createFragment html).2.elements (v.document.createFragment html).1)
      fun x => h.wellFormed.below_of_mem_elements h.toAside.live
    rw [operations_operation, operations_elementEvents]
    exact h.confined hb hd
  · exact h

theorem buildsAside_build (o : ViewOptions) :
    ∀ fuel, BuildsAside (View.build o fuel) (buildEvents o fuel)
  | 0 => fun _ html v hd => by
    simp only [buildEvents, operations_append, operations_cut, operations_nil, List.append_nil]
    exact asideBy_newFragment o html hd
  | fuel + 1 => fun scope html v hd => by
    have h := asideBy_newFragment o html hd
    rw [build_succ]
    simp only [buildEvents, operations_append]
    exact h.confined (confinedBy_showWith o scope .all (buildsAside_build o fuel) h.wellFormed
      h.toAside.live) hd

theorem confinedBy_showUnder (o : ViewOptions) (scope : Scope) (up : Update)
    (hd : v.document.WellFormed) (hu : v.document.Live under) :
    ConfinedBy under (operations (v.trace o scope up under)) v.document
      (v.showUnder o scope up under).2.document := by
  unfold showUnder trace
  split
  · exact .nil hd under
  · exact confinedBy_showWith o scope up (buildsAside_build o _) hd hu

theorem confinedBy_render (o : ViewOptions) (scope : Scope) (up : Update) (hd : v.document.WellFormed) :
    ConfinedBy root (operations (v.trace o scope up root)) v.document
      (v.render o scope up).2.document := by
  obtain ⟨s, hs, -⟩ := hd.rooted
  exact confinedBy_showUnder o scope up hd hs.live

/-- The operations in the trace of a pass are legal, and lead to the document that the pass leaves. -/
theorem run_operations_trace (o : ViewOptions) (scope : Scope) (up : Update) (under : NodeId) (v : View)
    (hd : v.document.WellFormed) (hu : v.document.Live under) :
    Operation.AllLegal v.document (operations (v.trace o scope up under)) ∧
      Operation.run v.document (operations (v.trace o scope up under)) =
        (v.showUnder o scope up under).2.document :=
  have h := confinedBy_showUnder o scope up hd hu
  ⟨h.legal, h.run_eq⟩

/-- A view after several passes, each in a scope of its own and for an update of its own. -/
def renderAll (o : ViewOptions) (v : View) (passes : List (Scope × Update)) : View :=
  passes.foldl (fun v (scope, up) => (v.render o scope up).2) v

theorem confined_renderAll (o : ViewOptions) : ∀ (passes : List (Scope × Update)) {v : View},
    v.document.WellFormed → Confined root v.document (v.renderAll o passes).document
  | [], _, hd => .refl hd root
  | (scope, up) :: passes, _, hd =>
    have h := confinedBy_render o scope up hd
    h.toConfined.trans (confined_renderAll o passes h.wellFormed) hd

/-- If no node of a document was lost, none is lost by any number of passes: every live node is the
root or stands below it, and there are as many as the walk from the root comes to. -/
theorem allAttached_renderAll (o : ViewOptions) (passes : List (Scope × Update)) (v : View)
    (hd : v.document.WellFormed) (ha : v.document.AllAttached) :
    (v.renderAll o passes).document.AllAttached ∧
      (v.renderAll o passes).document.liveNodes =
        (root :: (v.renderAll o passes).document.descendants root).length := by
  have h := confined_renderAll o passes hd
  have hattached := h.allAttached hd ha
  exact ⟨hattached, h.wellFormed.liveNodes_eq hattached⟩

/-- A list with an item for each value of an array. -/
def itemList : Template where
  html := "<ul><!-- loop:page_loop_0 --></ul>"
  conditions := []
  loops := [⟨"page_loop_0", "xs", "x", "<li pado-text=\"\x7bx\x7d\"></li>"⟩]

/-- Two items are shown, and then one in their place. -/
def itemPasses : List (Scope × Update) :=
  [(.ofBindings [("xs", .array [.string "a", .string "b"])], .all),
    (.ofBindings [("xs", .array [.string "c"])], .keys ["xs"])]

/-- The view of the list in a document of its own. -/
def itemView : View :=
  ofTemplate itemList (parse itemList.html.toList)

theorem document_itemView : itemView.document = parse itemList.html.toList := by
  rw [itemView, ofTemplate]

theorem allAttached_renderAll_itemView :
    itemView.document.WellFormed ∧ itemView.document.AllAttached ∧
      (itemView.renderAll {} itemPasses).document.AllAttached ∧
      (itemView.renderAll {} itemPasses).document.liveNodes =
        (root :: (itemView.renderAll {} itemPasses).document.descendants root).length := by
  have hd : itemView.document.WellFormed := by
    rw [document_itemView]
    exact wellFormed_parse _
  have ha : itemView.document.AllAttached := by
    rw [document_itemView]
    exact allAttached_parse _
  exact ⟨hd, ha, allAttached_renderAll {} itemPasses itemView hd ha⟩

end View

end LiveMarkup
