import LiveMarkup.Proofs.Page.Attached
import LiveMarkup.Proofs.Page.Attributes
import LiveMarkup.Proofs.Page.Extends
import LiveMarkup.Proofs.Page.Precedence

/-!
# What an update does not concern

An update touches what stands after the markers that it concerns and is owned by them, and what
stands below the texts that it concerns (`Document.touched`).  All other nodes below the root are
spared: they stay where they are while the state is shown (`View.render_keys_spares`).  A node that
stays keeps its parent, its owner, its place among the nodes beside it that stay, and what it is,
apart from the attributes and properties that its own bindings set.

A handle that owns nodes could come to name a new node in the middle of a pass if it was never the
handle of a node before, or if all generations of its slot come up.  Owners are settled where the
numbers of their handles do not come up (`Document.OwnersSettled`), as when they were live as they came
to own something, and the operations since then, with those of the pass, are less than `generations`
(`ownersSettled_run`).  In a page every owner stands before what it owns, and they are settled for any
number of operations (`Document.OwnersPrecede.ownersSettled`).
-/

namespace LiveMarkup

open Relation

/-! ## Records -/

namespace View

variable {build : Build} {o : ViewOptions} {scope : Scope} {up : Update} {v : View}
  {kind : DirectiveKind} {shows : NodeId → String → View → Option View}

/-- Fragments are made without a change to the records that are there. -/
def BuildsExtending (build : Build) : Prop :=
  ∀ (scope : Scope) (html : List Char) (v : View), v.records.Extends (build scope html v).2.records

theorem extends_showGroup (hb : BuildsExtending build) (id : NodeId) (g : ConditionGroup) :
    v.records.Extends (v.showGroup build o scope id g).records := by
  unfold showGroup
  simp only
  split
  · exact .refl _
  · rename_i b _
    split
    · exact .refl _
    · exact hb scope b.content.toList { v with document := (v.document.clearOwned id).2 }

theorem extends_addItems (hb : BuildsExtending build) (scope : Scope) (l : LoopDefinition)
    (target : NodeId) : ∀ (items : List Value) (i : Nat) (v : View),
      v.records.Extends (addItems build o scope l target i items v).records
  | [], _, _ => .refl _
  | item :: items, i, v => by
    have hbody := Records.extends_body o.depth v.records l i
    have hitem := hb (itemScope scope l i item) (v.records.body o.depth l i).1
      { v with records := (v.records.body o.depth l i).2 }
    rw [addItems_cons]
    rcases hv : build (itemScope scope l i item) (v.records.body o.depth l i).1
      { v with records := (v.records.body o.depth l i).2 } with ⟨fragment, v'⟩
    rw [hv] at hitem
    exact (hbody.trans hitem).trans (extends_addItems hb scope l target items (i + 1)
      { v' with document := v'.document.appendFragment target fragment })

theorem extends_showLoop (hb : BuildsExtending build) (id : NodeId) (l : LoopDefinition)
    (items : List Value) : v.records.Extends (v.showLoop build o scope id l items).records := by
  unfold showLoop
  exact extends_addItems hb scope l _ items 0
    { v with document := ((v.document.clearOwned id).2.createFragment []).2 }

/-- A group or loop is shown without a change to the records that are there. -/
def ShowsExtending (shows : NodeId → String → View → Option View) : Prop :=
  ∀ (id : NodeId) (name : String) (v v' : View), shows id name v = some v' →
    v.records.Extends v'.records

theorem showsExtending_group (o : ViewOptions) (scope : Scope) (up : Update)
    (hb : BuildsExtending build) :
    ShowsExtending (groupShower build o scope up) := fun id name v v' hv => by
  obtain ⟨g, -, -, rfl⟩ := groupShower_eq_some hv
  exact extends_showGroup hb id g

theorem showsExtending_loop (o : ViewOptions) (scope : Scope) (up : Update)
    (hb : BuildsExtending build) :
    ShowsExtending (loopShower build o scope up) := fun id name v v' hv => by
  obtain ⟨l, items, -, -, -, rfl⟩ := loopShower_eq_some hv
  exact extends_showLoop hb id l items

theorem extends_markerStep (hshows : ShowsExtending shows) (under : NodeId) (v : View)
    (n : NodeId × String) : v.records.Extends (markerStep kind shows under v n).records := by
  rcases markerStep_cases kind shows under v n with h | ⟨m, v', -, -, -, hv, h⟩ <;> rw [h]
  · exact .refl _
  · exact hshows n.1 m.name v v' hv

theorem extends_markers (kind : DirectiveKind) (hshows : ShowsExtending shows) (under : NodeId) :
    ∀ (ns : List (NodeId × String)) (v : View),
      v.records.Extends (ns.foldl (markerStep kind shows under) v).records
  | [], _ => .refl _
  | n :: ns, v => (extends_markerStep hshows under v n).trans (extends_markers kind hshows under ns _)

theorem extends_showWith (o : ViewOptions) (scope : Scope) (up : Update)
    (hb : BuildsExtending build) (under : NodeId) (v : View) :
    v.records.Extends (v.showWith build o scope up under).2.records := by
  have h1 := extends_markers .condition (showsExtending_group o scope up hb) under
    (v.document.comments under) v
  rw [← showGroups_snd] at h1
  have h2 := extends_markers .loop (showsExtending_loop o scope up hb) under
    ((v.showGroups build o scope up under).2.document.comments under)
    (v.showGroups build o scope up under).2
  rw [← showLoops_snd] at h2
  rw [showWith_snd]
  dsimp only
  exact h1.trans h2

theorem buildsExtending_build (o : ViewOptions) : ∀ fuel, BuildsExtending (View.build o fuel)
  | 0 => fun _ _ _ => .refl _
  | fuel + 1 => fun scope html v => by
    rw [build_succ]
    dsimp only
    exact extends_showWith o scope .all (buildsExtending_build o fuel) (v.newFragment o html).1
      (v.newFragment o html).2

/-- A pass adds records and changes none. -/
theorem extends_showUnder (o : ViewOptions) (scope : Scope) (up : Update) (under : NodeId) (v : View) :
    v.records.Extends (v.showUnder o scope up under).2.records := by
  unfold showUnder
  split
  · exact .refl _
  · exact extends_showWith o scope up (buildsExtending_build o _) under v

end View

/-! ## What an update concerns -/

/-- Whether a node is the marker of a group or loop that an update concerns. -/
def Update.meetsMarker (u : Update) (r : Records) : NodeData → Bool
  | .comment text =>
    match Marker.ofComment? text with
    | none => false
    | some m =>
      match m.kind with
      | .condition => (r.group? m.name).any fun g => u.meets g.vars
      | .loop => (r.loop? m.name).any fun l => u.meets l.vars
  | _ => false

/-- Whether a node is an element with a text that an update concerns. -/
def Update.meetsTextOf (u : Update) (data : NodeData) : Bool :=
  data.boundText?.any fun text => u.meetsText text.toList

/-- The attributes and properties for which an element has a binding that an update concerns. -/
def Element.concernedTargets (u : Update) (e : Element) : List String :=
  e.attributes.filterMap fun (name, source) =>
    (bindingTarget? name).filter fun _ => u.meets (expressionVars source.toList)

/-- Elements agree but for attributes and properties with the given names. -/
structure Element.AgreesBut (names : List String) (e e' : Element) : Prop where
  tag : e'.tag = e.tag
  attributes : e'.attributes.filter (·.1 ∉ names) = e.attributes.filter (·.1 ∉ names)
  flags : e'.flags.filter (·.1 ∉ names) = e.flags.filter (·.1 ∉ names)
  value : "value" ∉ names → e'.value = e.value

/-- Nodes agree but for what bindings set that an update concerns. -/
def NodeData.AgreesBut (u : Update) : NodeData → NodeData → Prop
  | .element e, .element e' => e.AgreesBut (e.concernedTargets u) e'
  | data, data' => data' = data

namespace Document

open Operation

variable {d d' d1 d2 : Document} {x w c m p : NodeId} {ops a b rest : List Operation}
  {u : Update} {r : Records} {A : Set NodeId}

/-- What a node owns: the nodes beside it that are owned by it, directly or through others, and all
that stands below them. -/
def content (d : Document) (m : NodeId) : Set NodeId :=
  {x | ∃ y, ReflTransGen d.Under x y ∧ TransGen d.OwnedBy y m}

/-- What an update touches: the content of the markers that it concerns, and all that stands below an
element with a text that it concerns. -/
def touched (d : Document) (u : Update) (r : Records) : Set NodeId :=
  {x | (∃ m, u.meetsMarker r (d.data m) = true ∧ x ∈ d.content m) ∨
    ∃ e, u.meetsTextOf (d.data e) = true ∧ TransGen d.Under x e}

/-- The nodes at or below the root that an update does not touch. -/
def spared (d : Document) (u : Update) (r : Records) : Set NodeId :=
  {x | d.isAttached x = true ∧ x ∉ d.touched u r}

/-! ## Spared nodes -/

theorem WellFormed.closed_spared (hd : d.WellFormed) (u : Update) (r : Records) :
    Closed (d.spared u r) d where
  live _ hx := hd.live_of_isAttached hx.1
  parent {x p} hx hp := by
    refine ⟨hd.isAttached_iff.mpr ?_, fun htouched => hx.2 ?_⟩
    · rcases (hd.isAttached_iff.mp hx.1).cases_head with rfl | ⟨y, hy, hroot⟩
      · exact absurd hp hd.not_under_root
      · exact hp.unique hy ▸ hroot
    · rcases htouched with ⟨m, hm, y, hpy, hy⟩ | ⟨e, he, hpe⟩
      · exact .inl ⟨m, hm, y, hpy.head hp, hy⟩
      · exact .inr ⟨e, he, hpe.head hp⟩

/-- What owns a spared node beside it is spared, and is no marker that the update concerns. -/
theorem WellFormed.spared_of_ownedBy (hd : d.WellFormed) (hx : x ∈ d.spared u r)
    (hw : d.OwnedBy x w) : w ∈ d.spared u r ∧ u.meetsMarker r (d.data w) = false := by
  obtain ⟨p, hxp, hwp⟩ := hw.2
  have hp := (hd.closed_spared u r).parent hx hxp
  refine ⟨⟨hd.isAttached_iff.mpr ((hd.isAttached_iff.mp hp.1).head hwp), fun htouched => hx.2 ?_⟩, ?_⟩
  · rcases htouched with ⟨m, hm, y, hwy, hy⟩ | ⟨e, he, hwe⟩
    · rcases hwy.cases_head with rfl | ⟨q, hq, hqy⟩
      · exact .inl ⟨m, hm, x, .refl, hy.head hw⟩
      · exact .inl ⟨m, hm, y, (hwp.unique hq ▸ hqy).head hxp, hy⟩
    · obtain ⟨q, hq, hqe⟩ := TransGen.head'_iff.mp hwe
      exact .inr ⟨e, he, .head' hxp (hwp.unique hq ▸ hqe)⟩
  · rw [← Bool.not_eq_true]
    exact fun hmeets => hx.2 (.inl ⟨w, hmeets, x, .refl, .single hw⟩)

/-- A time in a pass: the nodes that have stayed are as they were, and the spared ones have stayed if
owners are where they should be. -/
structure Spares (u : Update) (r : Records) (ops : List Operation) (d d' : Document) : Prop where
  lasts : Lasts ops d d'
  stays : d.OwnersSettled ops.length → d.spared u r ⊆ Stays d ops

namespace Spares

theorem nil (hd : d.WellFormed) (u : Update) (r : Records) : Spares u r [] d d :=
  ⟨.nil hd, fun _ _ hx => mem_stays_nil.mpr ((hd.closed_spared u r).live _ hx)⟩

section

variable (h : Spares u r ops d d1)
include h

theorem keeps (hsettled : d.OwnersSettled ops.length) : Keeps (d.spared u r) d d1 :=
  h.lasts.keeps.mono (h.stays hsettled)

/-- A spared node is what it was. -/
theorem data_eq (hd : d.WellFormed) (hsettled : d.OwnersSettled ops.length) (hx : x ∈ d.spared u r) :
    d1.data x = d.data x := by
  obtain ⟨s, hs⟩ := (hd.closed_spared u r).live x hx
  obtain ⟨s', hs', hdata, -⟩ := h.keeps hsettled x hx s hs
  rw [hs.data_eq, hs'.data_eq, hdata]

/-- What owns a spared node, and stands beside it now, stood beside it from the start. -/
theorem ownedBy (hd : d.WellFormed) (hsettled : d.OwnersSettled ops.length) (hx : x ∈ d.spared u r)
    (hw : d1.owner? x = some w) (hxp : d1.Under x p) (hwp : d1.Under w p) : d.OwnedBy x w := by
  obtain ⟨s, hs⟩ := (hd.closed_spared u r).live x hx
  obtain ⟨s', hs', -, -, howner, -⟩ := h.keeps hsettled x hx s hs
  have howns : d.owner? x = some w := by rw [hs.owner?_eq, ← howner, ← hs'.owner?_eq, hw]
  refine (hsettled x w howns).elim id fun hw => ⟨howns, p, ?_, ?_⟩
  · exact ((h.keeps hsettled).under_iff (hd.closed_spared u r) hx).mp hxp
  · have hstays : w ∈ Stays d ops :=
      hw.mem_stays hd h.lasts.legal le_rfl (by rw [h.lasts.run_eq]; exact hwp.live)
    obtain ⟨t, ht⟩ := live_of_mem_stays hstays
    obtain ⟨t', ht', -, hparent, -⟩ := h.lasts.keeps w hstays t ht
    obtain ⟨t'', ht'', hp⟩ := hwp
    obtain rfl := ht'.unique ht''
    exact ⟨t, ht, hparent.symm.trans hp⟩

/-- A marker that the update concerns gets new content. -/
theorem replace (hd : d.WellFormed) (hr : Replaces m rest d1 d2) (hm : d1.Under m p)
    (hmeets : d.OwnersSettled ops.length → m ∈ d.spared u r → u.meetsMarker r (d.data m) = true) :
    Spares u r (ops ++ .clearOwned m :: rest) d d2 where
  lasts := h.lasts.append (hr.lasts h.lasts.wellFormed hm)
  stays hsettled x hx := by
    have hl := hsettled.of_append
    have hclosed := (h.keeps hl).closed (hd.closed_spared u r)
    have hkeep := (h.lasts.wellFormed.clearOwned m).2 _ hclosed fun y hy hyA w hw => by
      obtain ⟨-, q, hmq, hyq⟩ := h.lasts.wellFormed.mem_followingSiblings hy
      constructor
      · rintro rfl
        have howned := h.ownedBy hd hl hyA hw hyq hmq
        obtain ⟨hwA, hnot⟩ := hd.spared_of_ownedBy hyA howned
        rw [hmeets hl hwA] at hnot
        cases hnot
      · intro hwf
        obtain ⟨-, q', hmq', hwq⟩ := h.lasts.wellFormed.mem_followingSiblings hwf
        exact (hd.spared_of_ownedBy hyA
          (h.ownedBy hd hl hyA hw hyq (hmq'.unique hmq ▸ hwq))).1
    refine mem_stays_append.mpr ⟨h.stays hl hx, ?_⟩
    rw [h.lasts.run_eq]
    exact mem_stays_cons.mpr ⟨hclosed.live x hx, hr.stays x (hkeep.live hx (hclosed.live x hx))⟩

/-- A text that the update concerns is shown. -/
theorem setInnerHtml (hd : d.WellFormed) (hc : d1.Live c) (html : List Char)
    (hmeets : u.meetsTextOf (d1.data c) = true) :
    Spares u r (ops ++ [.setInnerHtml c html]) d (d1.setInnerHtml c html) where
  lasts := h.lasts.append (h.lasts.wellFormed.lasts_setInnerHtml hc html)
  stays hsettled x hx := by
    have hl := hsettled.of_append
    have hclosed := (h.keeps hl).closed (hd.closed_spared u r)
    obtain ⟨d0, -, hgrows, hkeeps⟩ := h.lasts.wellFormed.setInnerHtml hc.issued html
    have hkeep := hkeeps _ hclosed fun y hy hyc => by
      have hcA := hclosed.parent hy hyc
      refine hy.2 (.inr ⟨c, ?_, .single ?_⟩)
      · rw [← h.data_eq hd hl hcA, hmeets]
      · exact ((h.keeps hl).under_iff (hd.closed_spared u r) hy).mp hyc
    have hlive := hkeep.live hx (hclosed.live x hx)
    refine mem_stays_append.mpr ⟨h.stays hl hx, ?_⟩
    rw [h.lasts.run_eq]
    exact mem_stays_cons.mpr ⟨hclosed.live x hx, mem_stays_nil.mpr (hgrows.keeps.live hlive hlive)⟩

end

end Spares

/-! ## The last step -/

section

open scoped Classical

/-- The nodes in `A` are kept, apart from what bindings set that an update concerns: what they are,
where they are, what owns them, and the order of those beside each other. -/
def KeepsBut (u : Update) (A : Set NodeId) (d d' : Document) : Prop :=
  ∀ x ∈ A, ∀ s, d.Holds x s → ∃ s', d'.Holds x s' ∧ s.data.AgreesBut u s'.data ∧
    s'.parent = s.parent ∧ s'.owner = s.owner ∧
    s'.children.filter (· ∈ A) = s.children.filter (· ∈ A)

end

/-- Elements are changed one after the other, each once; no node is made or removed. -/
theorem WellFormed.rewrites_updateElements (f : Element → Element) : ∀ (xs : List NodeId)
    {d : Document}, d.WellFormed → xs.Nodup → (∀ x ∈ xs, d.Live x) →
      Rewrites (fun x s => if x ∈ xs then { s with data := s.data.mapElement f } else s) d
        (xs.foldl (fun d n => d.updateElement n f) d)
  | [], d, _, _, _ => .of_eq_self fun _ _ _ => rfl
  | c :: xs, d, hd, hnd, hlive => by
    obtain ⟨hc, hnd⟩ := List.nodup_cons.mp hnd
    have h := rewrites_update (f := fun s => { s with data := s.data.mapElement f }) (fun _ => rfl)
      (hlive c List.mem_cons_self)
    rw [← updateElement_eq] at h
    have hwf := h.wellFormed hd (fun x s _ => by split <;> rfl) (fun x s _ => by split <;> rfl)
    have hrest := rewrites_updateElements f xs hwf hnd fun x hx =>
      h.live_iff.mpr (hlive x (List.mem_cons_of_mem c hx))
    refine (h.trans hrest).congr fun x s _ => ?_
    by_cases hx : x = c
    · subst hx
      simp [hc]
    · simp [hx]

/-- No node is gone in between when elements are changed. -/
theorem WellFormed.stays_updateElements (f : Element → Element) : ∀ (xs : List NodeId) {d : Document},
    d.WellFormed → (∀ y ∈ xs, d.Live y) → d.Live x →
      x ∈ Stays d (xs.map fun y => .updateData y fun data => data.mapElement f)
  | [], _, _, _, hx => mem_stays_nil.mpr hx
  | c :: xs, d, hd, hlive, hx => by
    have h := rewrites_update (f := fun s => { s with data := s.data.mapElement f }) (fun _ => rfl)
      (hlive c List.mem_cons_self)
    rw [← updateElement_eq] at h
    have hwf := h.wellFormed hd (fun x s _ => by split <;> rfl) (fun x s _ => by split <;> rfl)
    exact mem_stays_cons.mpr ⟨hx, WellFormed.stays_updateElements f xs hwf
      (fun y hy => h.live_iff.mpr (hlive y (List.mem_cons_of_mem c hy))) (h.live_iff.mpr hx)⟩

end Document

namespace Element

variable {names : List String} {e e' e'' : Element} {u : Update} {o : ViewOptions} {scope : Scope}

theorem AgreesBut.refl (names : List String) (e : Element) : e.AgreesBut names e :=
  ⟨rfl, rfl, rfl, fun _ => rfl⟩

theorem AgreesBut.trans (h : e.AgreesBut names e') (h' : e'.AgreesBut names e'') :
    e.AgreesBut names e'' :=
  ⟨h'.tag.trans h.tag, h'.attributes.trans h.attributes, h'.flags.trans h.flags,
    fun hv => (h'.value hv).trans (h.value hv)⟩

section

variable {α : Type} {k : String} (hk : k ∈ names)
include hk

theorem filter_setIn (value : String) : ∀ xs : List (String × String),
    (setIn k value xs).filter (·.1 ∉ names) = xs.filter (·.1 ∉ names)
  | [] => by simp [setIn, hk]
  | (k', x) :: xs => by
    rw [setIn]
    split
    · rename_i heq
      simp [heq, hk]
    · rw [List.filter_cons, List.filter_cons, filter_setIn value xs]

theorem filter_removeIn : ∀ xs : List (String × String),
    (removeIn k xs).filter (·.1 ∉ names) = xs.filter (·.1 ∉ names)
  | [] => rfl
  | (k', x) :: xs => by
    rw [removeIn]
    split
    · rename_i heq
      simp [heq, hk]
    · rw [List.filter_cons, List.filter_cons, filter_removeIn xs]

theorem filter_insertByKey (x : α) : ∀ xs : List (String × α),
    (insertByKey k x xs).filter (·.1 ∉ names) = xs.filter (·.1 ∉ names)
  | [] => by simp [insertByKey, hk]
  | (k', y) :: xs => by
    rw [insertByKey]
    split
    · simp [hk]
    · split
      · rename_i heq
        simp [← heq, hk]
      · rw [List.filter_cons, List.filter_cons, filter_insertByKey x xs]

/-- A binding sets nothing but what it is named for. -/
theorem agreesBut_applyBinding (e : Element) (v : Value) : e.AgreesBut names (e.applyBinding k v) := by
  have hset : ∀ value, e.AgreesBut names (e.setAttribute k value) := fun value =>
    ⟨rfl, filter_setIn hk value _, rfl, fun _ => rfl⟩
  unfold applyBinding
  split
  · -- a flag
    have hshown : e.AgreesBut names
        (if v.isTruthy then e.setAttribute k "" else e.removeAttribute k) := by
      split
      · exact hset ""
      · exact ⟨rfl, filter_removeIn hk _, rfl, fun _ => rfl⟩
    dsimp only
    split
    · exact hshown.trans ⟨rfl, rfl, filter_insertByKey hk _ _, fun _ => rfl⟩
    · exact hshown
  · split
    · rename_i hvalue
      have hk' : k = "value" := of_decide_eq_true ((Bool.and_eq_true _ _).mp hvalue).1
      exact ⟨rfl, rfl, rfl, fun hnot => absurd (hk' ▸ hk) hnot⟩
    · exact hset _

end

theorem agreesBut_applyAll : ∀ (vs : List (String × Value)) (e : Element),
    (∀ b ∈ vs, b.1 ∈ names) → e.AgreesBut names (e.applyAll vs)
  | [], e, _ => .refl names e
  | (_, v) :: vs, e, h =>
    (agreesBut_applyBinding (h _ List.mem_cons_self) e v).trans
      (agreesBut_applyAll vs _ fun b hb => h b (List.mem_cons_of_mem _ hb))

theorem mem_concernedTargets {b : String × Value} (hb : b ∈ e.boundValues o.namesItems scope u) :
    b.1 ∈ e.concernedTargets u := by
  obtain ⟨⟨name, source⟩, hmem, hb⟩ := List.mem_filterMap.mp hb
  refine List.mem_filterMap.mpr ⟨(name, source), hmem, ?_⟩
  simp only at hb ⊢
  split at hb
  · cases hb
  · rename_i target htarget
    split at hb
    · rename_i hmeets
      split at hb
      · cases hb
      · obtain rfl := Option.some.inj hb
        simp [htarget, hmeets]
    · cases hb

/-- The last step sets nothing but what bindings are named for that the update concerns. -/
theorem agreesBut_newAttributes (o : ViewOptions) (scope : Scope) (u : Update) (e : Element) :
    e.AgreesBut (e.concernedTargets u) (View.newAttributes o scope u e) :=
  agreesBut_applyAll _ e fun _ => mem_concernedTargets

end Element

theorem NodeData.AgreesBut.refl (u : Update) (data : NodeData) : data.AgreesBut u data := by
  cases data
  case element e => exact Element.AgreesBut.refl _ e
  all_goals rfl

theorem NodeData.agreesBut_mapElement (o : ViewOptions) (scope : Scope) (u : Update) (data : NodeData) :
    data.AgreesBut u (data.mapElement (View.newAttributes o scope u)) := by
  cases data
  case element e => exact e.agreesBut_newAttributes o scope u
  all_goals rfl

namespace Document

open Operation

variable {d d' d1 : Document} {ops b : List Operation} {u : Update} {r : Records}

/-- The last step sets attributes and properties of what is there. -/
theorem Spares.showAttributes (o : ViewOptions) (scope : Scope) (h : Spares u r ops d d1)
    (hd : d.WellFormed) (hroot : d1.Live root) (hb : b = View.operations
      (View.elementEvents (View.newAttributes o scope u) (d1.elements root)))
    (hd' : d' = (d1.showAttributes o.namesItems scope u root).2) :
    KeepsBut u (Stays d (ops ++ b)) d d' ∧
      (d.OwnersSettled (ops ++ b).length →
        ∀ x ∈ d.spared u r, x ∈ Stays d (ops ++ b) ∧ d'.isAttached x = true) := by
  have hwf := h.lasts.wellFormed
  have hlive : ∀ x ∈ d1.elements root, d1.Live x := fun x => hwf.live_of_mem_elements hroot
  have hsets := hwf.rewrites_updateElements (View.newAttributes o scope u) (d1.elements root)
    (hwf.nodup_elements hroot) hlive
  rw [← showAttributes_eq, ← hd'] at hsets
  rw [View.operations_elementEvents] at hb
  have hparent : ∀ x s, d1.Holds x s → (if x ∈ d1.elements root then
      { s with data := s.data.mapElement (View.newAttributes o scope u) } else s).parent = s.parent :=
    fun x s _ => by split <;> rfl
  have hwf' := hsets.wellFormed hwf hparent fun x s _ => by split <;> rfl
  refine ⟨fun x hx s hs => ?_, fun hsettled x hx => ⟨?_, ?_⟩⟩
  · have hkeep := h.lasts.keeps.mono (A := Stays d (ops ++ b)) fun y hy => (mem_stays_append.mp hy).1
    obtain ⟨s', hs', hdata, hp, ho, hc⟩ := hkeep x hx s hs
    refine ⟨_, hsets.holds_of hs', ?_, ?_⟩
    · split
      · rw [← hdata]
        exact NodeData.agreesBut_mapElement o scope u s'.data
      · rw [hdata]
        exact .refl u _
    · split <;> exact ⟨hp, ho, hc⟩
  · refine mem_stays_append.mpr ⟨h.stays hsettled.of_append hx, ?_⟩
    rw [h.lasts.run_eq, hb]
    exact hwf.stays_updateElements _ _ hlive
      ((h.keeps hsettled.of_append).live hx ((hd.closed_spared u r).live x hx))
  · have hattached := hd.isAttached_iff.mp hx.1
    rw [reflTransGen_iff_eq_or_transGen,
      ← (h.keeps hsettled.of_append).transGen_iff (hd.closed_spared u r) hx,
      ← reflTransGen_iff_eq_or_transGen] at hattached
    rw [hwf'.isAttached_iff]
    exact ReflTransGen.mono (fun _ _ => (hsets.under_iff hparent).mpr) _ _ hattached

end Document

namespace View

open Document Operation

variable {build : Build} {o : ViewOptions} {scope : Scope} {u : Update} {v : View} {under : NodeId}
  {kind : DirectiveKind} {shows : NodeId → String → View → Option View} {tells : Telling}
  {told : NodeId → String → View → List Event} {d d1 : Document} {ops : List Operation} {r : Records}

/-! ## Passes -/

/-- Only markers that an update concerns are shown. -/
def ShowsConcerned (kind : DirectiveKind) (u : Update) (shows : NodeId → String → View → Option View) :
    Prop :=
  ∀ (id : NodeId) (text : String) (m : Marker) (v v' : View) (r : Records),
    Marker.ofComment? text = some m → m.kind = kind → shows id m.name v = some v' →
      v.records.Extends r → u.meetsMarker r (.comment text) = true

theorem showsConcerned_group : ShowsConcerned .condition u (groupShower build o scope u) := by
  intro id text m v v' r hm hkind hv hr
  obtain ⟨g, hg, hmeets, -⟩ := groupShower_eq_some hv
  simp only [Update.meetsMarker, hm, hkind]
  rw [hr.group m.name g hg]
  exact hmeets

theorem showsConcerned_loop : ShowsConcerned .loop u (loopShower build o scope u) := by
  intro id text m v v' r hm hkind hv hr
  obtain ⟨l, items, hl, hmeets, -⟩ := loopShower_eq_some hv
  simp only [Update.meetsMarker, hm, hkind]
  rw [hr.loop m.name l hl]
  exact hmeets

theorem spares_markers (kind : DirectiveKind) (under : NodeId) (hd : d.WellFormed)
    (hreplaces : ShowsByReplacing shows told) (hextends : ShowsExtending shows)
    (hconcerned : ShowsConcerned kind u shows) :
    ∀ (ns : List (NodeId × String)) {v : View} {ops : List Operation},
      Spares u r ops d v.document → (ns.foldl (markerStep kind shows under) v).records.Extends r →
        (∀ n ∈ ns, d.OwnersSettled ops.length → n.1 ∈ d.spared u r → d.data n.1 = .comment n.2) →
          Spares u r (ops ++ operations (markersEvents kind shows told under ns v)) d
            (ns.foldl (markerStep kind shows under) v).document
  | [], v, ops, h, _, _ => by rwa [markersEvents, operations_nil, List.append_nil]
  | n :: ns, v, ops, h, hr, hns => by
    rw [List.foldl_cons] at hr ⊢
    have hrest := extends_markers kind hextends under ns (markerStep kind shows under v n)
    have hstep : Spares u r (ops ++ operations (markerEvents kind told under v n)) d
        (markerStep kind shows under v n).document := by
      rcases turn_cases kind shows told under v n with ⟨heq, he⟩ | ⟨m, hm, hkind, hbelow, heq, he⟩
      · rwa [heq, he, operations_nil, List.append_nil]
      · rcases hv : shows n.1 m.name v with _ | v' <;> rw [hv] at heq
        · rwa [heq, he, hreplaces.idle n.1 m.name v hv, List.append_nil]
        · rw [h.lasts.wellFormed.isDescendant_iff] at hbelow
          obtain ⟨q, hq, -⟩ := TransGen.head'_iff.mp hbelow
          obtain ⟨rest, hops, hrest'⟩ :=
            hreplaces.shown n.1 q m.name v v' h.lasts.wellFormed hq hv
          have hv' : v.records.Extends r := by
            rw [heq] at hrest hr
            exact (hextends n.1 m.name v v' hv).trans (hrest.trans hr)
          rw [heq, he, hops]
          refine h.replace hd hrest' hq fun hsettled hn => ?_
          rw [hns n List.mem_cons_self hsettled hn]
          exact hconcerned n.1 n.2 m v v' r hm hkind hv hv'
    rw [markersEvents, operations_append, ← List.append_assoc]
    exact spares_markers kind under hd hreplaces hextends hconcerned ns hstep hr
      fun n' hn' hsettled => hns n' (List.mem_cons_of_mem n hn') hsettled.of_append

theorem data_of_mem_comments {n : NodeId × String} (hn : n ∈ d.comments under) :
    d.data n.1 = .comment n.2 := by
  obtain ⟨m, -, hm⟩ := List.mem_filterMap.mp hn
  obtain ⟨text, htext, rfl⟩ := Option.map_eq_some_iff.mp hm
  dsimp only
  cases hdata : d.data m <;> rw [hdata] at htext <;> cases htext
  rfl

/-- A spared comment that is found in the middle of a pass was there before. -/
theorem data_of_mem_comments_of_spared (hd : d.WellFormed) (h : Spares u r ops d d1)
    {n : NodeId × String} (hn : n ∈ d1.comments under) (hsettled : d.OwnersSettled ops.length)
    (hspared : n.1 ∈ d.spared u r) : d.data n.1 = .comment n.2 := by
  rw [← h.data_eq hd hsettled hspared]
  exact data_of_mem_comments hn

theorem spares_texts (hd : d.WellFormed) (o : ViewOptions) (scope : Scope) : ∀ (xs : List NodeId)
    {d1 : Document} {ops : List Operation}, Spares u r ops d d1 →
      Spares u r (ops ++ operations (textsEvents o scope u xs d1)) d
        (xs.foldl (fun d n => (d.showText o.namesItems scope u n).2) d1)
  | [], d1, ops, h => by rwa [textsEvents, operations_nil, List.append_nil]
  | x :: xs, d1, ops, h => by
    have hstep : Spares u r (ops ++ operations (textEvents o scope u d1 x)) d
        (d1.showText o.namesItems scope u x).2 := by
      rcases h.lasts.wellFormed.showText_cases o scope u x with
        ⟨heq, he⟩ | ⟨text, html, hx, ht, hm, heq, he⟩ <;> rw [heq, he]
      · rwa [operations_nil, List.append_nil]
      · have hbound : (d1.data x).boundText? = some text := ht
        exact h.setInnerHtml hd hx html (by rw [Update.meetsTextOf, hbound]; exact hm)
    rw [textsEvents, operations_append, ← List.append_assoc, List.foldl_cons]
    exact spares_texts hd o scope xs hstep

/-- A pass touches only what the update concerns. -/
theorem showWith_spares (o : ViewOptions) (scope : Scope) (u : Update)
    (hb : BuildsAside build tells) (hbx : BuildsExtending build) (hd : v.document.WellFormed) :
    KeepsBut u (Stays v.document (operations (showEvents build tells o scope u root v))) v.document
        (v.showWith build o scope u root).2.document ∧
      (v.document.OwnersSettled (operations (showEvents build tells o scope u root v)).length →
        ∀ x ∈ v.document.spared u (v.showWith build o scope u root).2.records,
          x ∈ Stays v.document (operations (showEvents build tells o scope u root v)) ∧
            (v.showWith build o scope u root).2.document.isAttached x = true) := by
  obtain ⟨s, hs, -⟩ := hd.rooted
  have hgx := showsExtending_group o scope u hbx
  have hlx := showsExtending_loop o scope u hbx
  simp only [showEvents, operations_append]
  rw [showWith_snd]
  dsimp only
  generalize hr : ((v.showGroups build o scope u root).2.showLoops build o scope u
    root).2.records = r
  have h0 := Spares.nil hd u r
  have hloops := extends_markers .loop hlx root
    ((v.showGroups build o scope u root).2.document.comments root)
    (v.showGroups build o scope u root).2
  rw [← showLoops_snd, hr] at hloops
  have h1 := spares_markers .condition root hd
    (showsByReplacing_group o scope u hb) hgx showsConcerned_group
    (v.document.comments root) h0 (by rw [← showGroups_snd]; exact hloops)
    fun n hn hsettled hspared => data_of_mem_comments_of_spared hd h0 hn hsettled hspared
  rw [← showGroups_snd, List.nil_append] at h1
  have h2 := spares_markers .loop root hd
    (showsByReplacing_loop o scope u (v.showGroups build o scope u root).2.document hb) hlx
    showsConcerned_loop ((v.showGroups build o scope u root).2.document.comments root) h1
    (by rw [← showLoops_snd, hr]; exact .refl r)
    fun n hn hsettled hspared => data_of_mem_comments_of_spared hd h1 hn hsettled hspared
  rw [← showLoops_snd] at h2
  have h3 := spares_texts hd o scope
    (((v.showGroups build o scope u root).2.showLoops build o scope u root).2.document.elements
      root) h2
  rw [← showTexts_eq] at h3
  obtain ⟨t, ht, -⟩ := h3.lasts.wellFormed.rooted
  have h4 := h3.showAttributes o scope hd ht.live rfl rfl
  simp only [List.append_assoc] at h4
  exact h4

theorem render_spares (o : ViewOptions) (scope : Scope) (u : Update) (v : View)
    (hd : v.document.WellFormed) :
    KeepsBut u (Stays v.document (operations (v.trace o scope u root))) v.document
        (v.render o scope u).2.document ∧
      (v.document.OwnersSettled (operations (v.trace o scope u root)).length →
        ∀ x ∈ v.document.spared u (v.render o scope u).2.records,
          x ∈ Stays v.document (operations (v.trace o scope u root)) ∧
            (v.render o scope u).2.document.isAttached x = true) := by
  unfold render showUnder trace
  split
  · -- nothing has changed
    refine ⟨fun x _ s hs => ⟨s, hs, .refl u _, rfl, rfl, rfl⟩, fun _ x hx => ?_⟩
    exact ⟨mem_stays_nil.mpr ((hd.closed_spared u _).live x hx), hx.1⟩
  · exact showWith_spares o scope u (buildsAside_build o _) (buildsExtending_build o _) hd

/-- A pass for changed names touches only what depends on them.  A node stays if it is there before and
after every operation of the pass; as long as these are less than `generations`, the nodes that stay
are those that are there before and after the pass.  All that stay are kept, apart from the attributes
and properties that their own bindings set: what they are, where they are, what owns them, and the order
of those beside each other.  Everything that is spared stays, and stays attached, if owners are settled
for the operations of the pass.

What is spared is said by the records after the pass.  All records from before are among them
(`extends_showUnder`), and a marker may be shown for a record that was derived in the pass itself. -/
theorem render_keys_spares (o : ViewOptions) (scope : Scope) (names : List String) (v : View)
    (hd : v.document.WellFormed)
    (howners : v.document.OwnersSettled (operations (v.trace o scope (.keys names) root)).length) :
    (∀ x ∈ v.document.spared (.keys names) (v.render o scope (.keys names)).2.records,
      x ∈ Stays v.document (operations (v.trace o scope (.keys names) root)) ∧
        (v.render o scope (.keys names)).2.document.isAttached x = true) ∧
      KeepsBut (.keys names) (Stays v.document (operations (v.trace o scope (.keys names) root)))
        v.document (v.render o scope (.keys names)).2.document ∧
      ((operations (v.trace o scope (.keys names) root)).length < generations →
        ∀ x, x ∈ Stays v.document (operations (v.trace o scope (.keys names) root)) ↔
          v.document.Live x ∧ (v.render o scope (.keys names)).2.document.Live x) := by
  obtain ⟨s, hs, -⟩ := hd.rooted
  obtain ⟨hlegal, hrun⟩ := run_operations_trace o scope (.keys names) root v hd hs.live
  obtain ⟨hkeeps, hspared⟩ := render_spares o scope (.keys names) v hd
  refine ⟨hspared howners, hkeeps, fun hlen x => ⟨fun hx => ?_, fun ⟨hx, hx'⟩ => ?_⟩⟩
  · have hafter := live_run_of_mem_stays hx
    rw [hrun] at hafter
    exact ⟨live_of_mem_stays hx, hafter⟩
  · exact mem_stays_of_live hd hlegal hx (hrun ▸ hx') hlen

/-- An item is put into the list as one that the marker owns, and then moved out of the list. -/
def takenOut : List Operation :=
  [.createFragment "<li>b</li>".toList, .insertOwned ⟨2, 0⟩ ⟨3, 0⟩, .appendChild root ⟨4, 0⟩]

/-- The view of the list after that. -/
def takenView : View :=
  ofTemplate itemList (run (parse itemList.html.toList) takenOut)

theorem document_takenView :
    takenView.document = run (parse itemList.html.toList) takenOut := by
  rw [takenView, ofTemplate]

theorem allLegal_takenOut : AllLegal (parse itemList.html.toList) takenOut :=
  (areLegal_iff (wellFormed_parse _)).mp (by decide +kernel)

theorem wellFormed_takenView : takenView.document.WellFormed := by
  rw [document_takenView]
  exact (wellFormed_run _ _ allLegal_takenOut).1

theorem ownersSettled_takenView {n : Nat} (hn : takenOut.length + n < generations) :
    takenView.document.OwnersSettled n := by
  rw [document_takenView]
  refine ownersSettled_run _ allLegal_takenOut ⟨fun _ hw => hw.elim, ?_, fun _ hw => hw.elim, trivial⟩ hn
  rintro w rfl
  have hd : ((Operation.createFragment "<li>b</li>".toList).apply
      (parse itemList.html.toList)).WellFormed :=
    (allLegal_takenOut.1.sane (wellFormed_parse _)).wellFormed
  have hlist := hd.parent?_eq_some_iff (x := ⟨2, 0⟩) (p := ⟨1, 0⟩)
  exact (hlist.mp (by decide +kernel)).live

/-- The item that was taken out is owned by the marker of the list, but does not stand beside it. -/
theorem spared_takenView (r : Records) (u : Update) : (⟨4, 0⟩ : NodeId) ∈ takenView.document.spared u r := by
  have hd := wellFormed_takenView
  have hroot : takenView.document.Under ⟨4, 0⟩ root := hd.parent?_eq_some_iff.mp (by decide +kernel)
  have hmarker : takenView.document.Under ⟨2, 0⟩ ⟨1, 0⟩ := hd.parent?_eq_some_iff.mp (by decide +kernel)
  have howner : takenView.document.owner? ⟨4, 0⟩ = some ⟨2, 0⟩ := by decide +kernel
  have habove : ∀ {y}, ReflTransGen takenView.document.Under root y → y = root := fun h => by
    rcases h.cases_head with rfl | ⟨q, hq, -⟩
    · rfl
    · exact absurd hq hd.not_under_root
  refine ⟨by decide +kernel, ?_⟩
  rintro (⟨m, -, y, hy, hym⟩ | ⟨e, he, hxe⟩)
  · obtain ⟨w, hw, -⟩ := TransGen.head'_iff.mp hym
    obtain ⟨hyw, p, hyp, hwp⟩ := hw
    rcases hy.cases_head with rfl | ⟨q, hq, hqy⟩
    · obtain rfl := Option.some.inj (hyw.symm.trans howner)
      exact absurd (hwp.unique hmarker) (by rw [hyp.unique hroot]; decide)
    · obtain rfl := hq.unique hroot
      obtain rfl := habove hqy
      exact hd.not_under_root hyp
  · obtain ⟨q, hq, hqe⟩ := TransGen.head'_iff.mp hxe
    obtain rfl := hq.unique hroot
    obtain rfl := habove hqe
    rw [show takenView.document.data root = .root by decide +kernel] at he
    cases he

/-- A state with one item. -/
def oneItem : Scope :=
  .ofBindings [("xs", .array [.string "a"])]

/-- The list is shown anew for its array; the item that was taken out stays. -/
theorem render_keys_spares_takenView :
    takenView.document.WellFormed ∧
    takenView.document.OwnersSettled
      (operations (takenView.trace {} oneItem (.keys ["xs"]) root)).length ∧
    (takenView.render {} oneItem (.keys ["xs"])).2.document.isAttached ⟨4, 0⟩ = true ∧
    (takenView.render {} oneItem (.keys ["xs"])).2.document.toHtml =
      "<ul><!-- loop:page_loop_0 --><li pado-text=\"\x7bxs[0]\x7d\">a</li></ul><li>b</li>".toList := by
  have hlength : (operations (takenView.trace {} oneItem (.keys ["xs"]) root)).length = 11 := by
    decide +kernel
  have howners : takenView.document.OwnersSettled
      (operations (takenView.trace {} oneItem (.keys ["xs"]) root)).length := by
    rw [hlength]
    exact ownersSettled_takenView (by decide)
  have h := render_keys_spares {} oneItem ["xs"] takenView wellFormed_takenView howners
  exact ⟨wellFormed_takenView, howners, (h.1 _ (spared_takenView _ _)).2, by decide +kernel⟩

end View

end LiveMarkup
