import LiveMarkup.Proofs.Page.Steps

/-!
# Showing a state in a document without loops

A state that is shown below a node turns the forest there into the one that the functions on forests
give (`showWith_spec`), and a fragment is built with just the forest that is made of its markup
(`build_spec`).  How often slots are freed on the way is bounded by weights that are given to the
markers (`Weighs`): with less than `generations` frees no stale handle is mistaken for a live one.
-/

namespace LiveMarkup

open Text

namespace Document

variable {d : Document} {id : NodeId} {s : Slot} {f g : Slot → Slot}

theorem update_congr (h : ∀ s, d.slot? id = some s → f s = g s) : d.update id f = d.update id g := by
  unfold update
  split
  · rename_i hc
    congr 1
    refine Array.ext_getElem? fun i => ?_
    rw [Array.getElem?_modify, Array.getElem?_modify]
    split
    · rename_i hi
      subst hi
      rcases hs : d.slots[id.index]? with _ | s
      · rfl
      · have hslot : d.slot? id = some s := by
          obtain ⟨t, ht⟩ := Option.isSome_iff_exists.mp hc
          have hmem := Option.filter_eq_some_iff.mp ht
          rw [ht, ← hs, hmem.1]
        rw [Option.map_some, Option.map_some, h s hslot]
    · rfl
  · rfl

theorem update_eq_self (h : ∀ s, d.slot? id = some s → f s = s) : d.update id f = d := by
  rw [update_congr (g := fun s => s) h]
  unfold update
  split
  · have : d.slots.modify id.index (fun s => s) = d.slots :=
      Array.ext_getElem? fun i => by
        rw [Array.getElem?_modify]
        split <;> simp
    rw [this]
  · rfl

theorem showAttributesOf_eq (o : ViewOptions) (scope : Scope) (u : Update) (d : Document)
    (id : NodeId) : (d.showAttributesOf o.namesItems scope u id).2 =
      d.updateElement id (View.newAttributes o scope u) := by
  have hdata : ∀ s, d.slot? id = some s → d.data id = s.data := fun s hs => by
    rw [data, hs]
    rfl
  rw [updateElement_eq]
  unfold showAttributesOf
  rcases he : d.element? id with _ | e
  · refine (update_eq_self fun s hs => ?_).symm
    rw [element?, hdata s hs] at he
    have : s.data.mapElement (View.newAttributes o scope u) = s.data := by
      rcases hd : s.data <;> rw [hd] at he <;> first | rfl | cases he
    rw [this]
  · simp only [updateElement_eq]
    refine update_congr fun s hs => ?_
    rw [element?, hdata s hs] at he
    have : s.data = .element e := by
      rcases hd : s.data <;> rw [hd] at he <;> cases he
      rfl
    rw [this]
    rfl

theorem showAttributes_eq (o : ViewOptions) (scope : Scope) (u : Update) (d : Document)
    (under : NodeId) : (d.showAttributes o.namesItems scope u under).2 =
      (d.elements under).foldl (fun d n => d.updateElement n (View.newAttributes o scope u)) d :=
  snd_foldl (fun _ d n => showAttributesOf_eq o scope u d n) _ 0 d

theorem showTexts_eq (o : ViewOptions) (scope : Scope) (u : Update) (d : Document)
    (under : NodeId) : (d.showTexts o.namesItems scope u under).2 =
      (d.elements under).foldl (fun d n => (d.showText o.namesItems scope u n).2) d :=
  snd_foldl (fun _ _ _ => rfl) _ 0 d

end Document

namespace View

open Document

variable {o : ViewOptions} {scope : Scope} {r : Records} {u : Update} {v : View}
  {build : Build} {make : List Char → Forest Unit} {w : NodeData → Nat} {p : NodeId} {sp : Slot}
  {f : Forest NodeId}

theorem showLoops_eq (hr : v.records.loops = []) (under : NodeId) :
    (v.showLoops build o scope u under).2 = v := by
  unfold showLoops
  rw [showMarkers_eq]
  refine foldl_keep fun n _ => ?_
  unfold markerStep
  rcases Marker.ofComment? n.2 with _ | m <;> simp only
  split
  · have hnone : v.records.loop? m.name = none := by
      rw [Records.loop?, hr]
      rfl
    rw [hnone]
    rfl
  · rfl

/-- Weights of markers, by which every marker is heavier than what a block of its group holds. -/
structure Weighs (r : Records) (w : NodeData → Nat) : Prop where
  elements : ∀ e, w (.element e) = 0
  blocks : ∀ data g, r.groupAt? data = some g → ∀ b ∈ g.blocks,
    (Forest.ofTrees (Tree.parse b.content.toList)).weigh w < w data

/-- A way of building fragments builds what is made of their markup. -/
def BuildsAs (build : Build) (scope : Scope) (make : List Char → Forest Unit) (w : NodeData → Nat)
    (r : Records) : Prop :=
  ∀ v html, v.records = r → v.document.Sound → v.document.Rooted →
    ∃ g sp, (build scope html v).2.records = r ∧
      Stands (build scope html v).2.document (build scope html v).1 sp none [] [] g ∧
      sp.data = .fragment ∧ sp.parent = none ∧ g.shape = make html ∧
      Swapped [] ((build scope html v).1.index :: g.ids) v.document
        (build scope html v).2.document ∧
      Aged (fun _ => 0) (fun _ => 3 * (Forest.ofTrees (Tree.parse html)).weigh w + 2) v.document
        (build scope html v).2.document

/-- What the groups of a view show. -/
theorem showGroups_showsAs (hw : Weighs r w) (hb : BuildsAs build scope make w r) :
    ShowsAs .condition (fun id name v => do
      let g ← v.records.group? name
      if u.meets g.vars then some (v.showGroup build o scope id g) else none)
      (newContent o scope r make u) (fun data => 3 * w data) r where
  ofKind data c h := by
    obtain ⟨g, hg, -⟩ := Option.map_eq_some_iff.mp h
    have hg := (Option.filter_eq_some_iff.mp hg).1
    obtain ⟨text, rfl⟩ : ∃ text, data = .comment text := by
      cases data <;> first | exact ⟨_, rfl⟩ | cases hg
    unfold Records.groupAt? at hg
    simp only at hg
    split at hg
    · rename_i name hm
      exact ⟨text, _, rfl, hm, rfl⟩
    · cases hg
  skips v id text m hr hm hkind hnew := by
    obtain ⟨kind, name⟩ := m
    obtain rfl : kind = .condition := hkind
    have hgroup : r.groupAt? (.comment text) = r.group? name := by
      simp only [Records.groupAt?, hm]
    rw [newContent, hgroup] at hnew
    simp only [hr]
    rcases hg : r.group? name with _ | g
    · rfl
    · by_cases hmeets : u.meets g.vars = true
      · simp [hg, hmeets, Option.filter] at hnew
      · simp [hmeets]
  shows v p sp o' L R id text m cs ow rest c hr hd hst hm hkind hnew := by
    obtain ⟨kind, name⟩ := m
    obtain rfl : kind = .condition := hkind
    have hgroup : r.groupAt? (.comment text) = r.group? name := by
      simp only [Records.groupAt?, hm]
    obtain ⟨g, hg, rfl⟩ := Option.map_eq_some_iff.mp hnew
    obtain ⟨hg, hmeets⟩ := Option.filter_eq_some_iff.mp hg
    have hweight := hw.blocks _ g hg
    rw [hgroup] at hg
    obtain ⟨htc, hagc⟩ := clearOwned_spec hd hst
    have hdc := htc.swapped.sound hd
    have hshow : (do
        let g ← v.records.group? name
        if u.meets g.vars then some (v.showGroup build o scope id g) else none) =
        some (v.showGroup build o scope id g) := by
      simp [hr, hg, hmeets]
    have hclear : ∀ c, c = Forest.nil → ∃ v' ow',
        some { v with document := (v.document.clearOwned id).2 } = some v' ∧ v'.records = r ∧
        Turns p sp (some id) (L ++ [id]) (rest.tops ++ R) ow ow' v.document v'.document ∧
        ow'.shape = c ∧ Aged (once ow.ids) (fun i => once ow.ids i + 3 * w (.comment text))
          v.document v'.document := by
      rintro c rfl
      exact ⟨_, .nil, rfl, hr, htc, rfl, hagc.mono (fun i => le_rfl) fun i => Nat.le_add_right ..⟩
    rw [hshow]
    unfold showGroup groupContent
    simp only
    rcases hb' : chosenBlock o scope g with _ | b
    · exact hclear _ rfl
    · simp only
      split
      · exact hclear _ rfl
      · have hmem : b ∈ g.blocks := List.mem_of_find?_eq_some hb'
        have hwb := hweight b hmem
        obtain ⟨new, sF, hrb, hF, hdata, hnone, hs, hsw, hag⟩ :=
          hb { v with document := (v.document.clearOwned id).2 } b.content.toList hr hdc
            htc.stands.rooted
        set built := build scope b.content.toList { v with document := (v.document.clearOwned id).2 }
        have hid := htc.stands.siblings id (by simp)
        have hidL : id ∉ L := fun h =>
          (hst.siblings id (List.mem_append_left R h)).2.1 (by simp [Forest.ids])
        have hself : ∃ s, (v.document.clearOwned id).2.Holds id s ∧ s.parent = some p :=
          ⟨_, (hst.turns_inOwned htc).stands.held.1, rfl⟩
        obtain ⟨s, hs', hparent⟩ := hself
        obtain ⟨hti, hagi⟩ := insertOwned_spec (hsw.sound hdc) htc.stands hs' hparent hidL hsw hF hdata
          hnone
        refine ⟨_, new, rfl, hrb, htc.trans hti, hs, (hagc.trans (hag.trans hagi)).mono
          (fun i => le_rfl) fun i => ?_⟩
        have := once_le_one [built.1.index] i
        omega

/-- A state that is shown below a node turns the forest there into what the functions on forests
give. -/
theorem showWith_spec (hw : Weighs r w) (hb : BuildsAs build scope make w r) (hr : v.records = r)
    (hloops : r.loops = []) (hd : v.document.Sound) (hst : Stands v.document p sp none [] [] f)
    (hcost : f.Bare ∨ 3 * f.cost (newContent o scope r make u) w + 1 < generations) : ∃ g,
    (v.showWith build o scope u p).2.records = r ∧
    Turns p sp none [] [] f g v.document (v.showWith build o scope u p).2.document ∧
    g.shape = shown o scope r make u f.shape ∧
    Aged (fun _ => 0) (fun _ => 3 * f.cost (newContent o scope r make u) w + 2) v.document
      (v.showWith build o scope u p).2.document := by
  have hmul : f.cost (newContent o scope r make u) (fun data => 3 * w data) =
      3 * f.cost (newContent o scope r make u) w := by
    clear hst hcost
    induction f with
    | nil => rfl
    | node id data cs ow rest ihc iho ihr =>
      simp only [Forest.cost, ihc, iho, ihr]
      split <;> omega
  obtain ⟨f1, hr1, ht1, hs1, hag1⟩ := foldl_markers (showGroups_showsAs (o := o) (u := u) hw hb) hr hd hst
    hst.path_self (hcost.imp_right fun h => by omega)
  rw [hmul] at hag1
  rw [← comments_eq hst, ← showMarkers_eq] at hr1 ht1 hag1
  unfold showWith
  simp only [showGroups]
  set v1 := (v.showMarkers .condition (fun id name v => do
      let g ← v.records.group? name
      if u.meets g.vars then some (v.showGroup build o scope id g) else none) p).2
  rw [showLoops_eq (hr1 ▸ hloops), showAttributes_eq, showTexts_eq]
  have hd1 := ht1.swapped.sound hd
  obtain ⟨f2, ht2, hs2, hag2⟩ := foldl_texts o scope u hd1 ht1.stands
  rw [← elements_eq ht1.stands] at ht2 hag2
  obtain ⟨f3, ht3, hs3, hag3⟩ := foldl_updateElement (newAttributes o scope u)
    (ht2.swapped.sound hd1) ht2.stands
  rw [← elements_eq ht2.stands] at ht3 hag3
  refine ⟨f3, hr1, (ht1.trans ht2).trans ht3, ?_, ((hag1.trans hag2).trans hag3).mono
    (fun _ => Nat.zero_le _) fun i => ?_⟩
  · rw [hs3, hs2, hs1]
    rfl
  · have h1 := once_le_one f.ids i
    have h2 := once_le_one f1.ids i
    omega

theorem weigh_raw (hw : ∀ e, w (.element e) = 0) (o : ViewOptions) (html : List Char) :
    (raw o html).weigh w = (Forest.ofTrees (Tree.parse html)).weigh w := by
  unfold raw
  split
  · exact (Forest.altered_mapElements _ _).weigh hw
  · rfl

/-- A new fragment holds the forest of its markup, as it is before anything is shown in it. -/
theorem newFragment_spec (o : ViewOptions) (v : View) (html : List Char) (hd : v.document.Sound)
    (hroot : v.document.Rooted) : ∃ g sp, sp.data = .fragment ∧ sp.parent = none ∧
      (v.newFragment o html).2.document.Sound ∧
      Stands (v.newFragment o html).2.document (v.newFragment o html).1 sp none [] [] g ∧
      g.shape = raw o html ∧
      Swapped [] ((v.newFragment o html).1.index :: g.ids) v.document
        (v.newFragment o html).2.document ∧
      Aged (fun _ => 0) (fun _ => 0) v.document (v.newFragment o html).2.document := by
  obtain ⟨g, sp, hdata, hnone, hst, hs, -, hsw, hag⟩ := createFragment_spec hd hroot html
  have hd0 := hsw.sound hd
  unfold newFragment raw
  dsimp only
  split
  · obtain ⟨g1, ht1, hs1, hag1⟩ := foldl_updateElement Element.completeHandlers hd0 hst
    rw [← elements_eq hst] at ht1 hag1
    exact ⟨g1, sp, hdata, hnone, ht1.swapped.sound hd0, ht1.stands, hs ▸ hs1,
      hsw.trans ht1.swapped, hag.trans hag1⟩
  · exact ⟨g, sp, hdata, hnone, hd0, hst, hs, hsw, hag⟩

theorem build_succ (o : ViewOptions) (fuel : Nat) (scope : Scope) (html : List Char) (v : View) :
    View.build o (fuel + 1) scope html v = ((v.newFragment o html).1,
      (showWith (View.build o fuel) o scope .all (v.newFragment o html).1
        (v.newFragment o html).2).2) := by
  rw [View.build]

theorem records_newFragment (o : ViewOptions) (html : List Char) (v : View) :
    (v.newFragment o html).2.records = v.records :=
  rfl

/-- Fragments are built with just what is made of their markup. -/
theorem build_spec (hw : Weighs r w) (hloops : r.loops = []) (o : ViewOptions) (scope : Scope)
    (fuel : Nat) : BuildsAs (View.build o fuel) scope (made o scope r fuel) w r := by
  induction fuel with
  | zero =>
    intro v html hr hd hroot
    obtain ⟨g, sp, hdata, hnone, -, hst, hs, hsw, hag⟩ := newFragment_spec o v html hd hroot
    rw [View.build, made]
    exact ⟨g, sp, (records_newFragment o html v).trans hr, hst, hdata, hnone, hs, hsw,
      hag.mono (fun _ => le_rfl) fun _ => Nat.zero_le _⟩
  | succ fuel ih =>
    intro v html hr hd hroot
    obtain ⟨g1, sp, hdata, hnone, hd1, hst, hs1, hsw, hag⟩ := newFragment_spec o v html hd hroot
    have hcost : g1.cost (newContent o scope r (made o scope r fuel) .all) w ≤
        (Forest.ofTrees (Tree.parse html)).weigh w := by
      rw [← Forest.cost_shape, hs1, ← weigh_raw hw.elements o html]
      exact Forest.cost_le_weigh _
    have hbare := Forest.bare_shape.mp (hs1 ▸ bare_raw o html)
    have hr1 := (records_newFragment o html v).trans hr
    rw [build_succ, made]
    generalize v.newFragment o html = new at *
    dsimp only
    obtain ⟨g2, hr2, ht2, hs2, hag2⟩ := showWith_spec (o := o) (u := .all) hw ih hr1 hloops hd1 hst
      (.inl hbare)
    refine ⟨g2, sp, hr2, ht2.stands, hdata, hnone, ?_, hsw.trans ht2.swapped,
      (hag.trans hag2).mono (fun _ => Nat.zero_le _) fun i => ?_⟩
    · rw [hs2, hs1]
    · omega

end View

end LiveMarkup
