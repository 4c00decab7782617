import LiveMarkup.Proofs.Document.Clearing

/-!
# What a marker owns itself

The instances of a marker are the siblings after it that it owns itself (`instances`).  As long as a
marker stays, its instances are the same: other markers own what they add, and take away only what
they own (`Filled.remains`), and a text that is shown takes a marker along with its siblings
(`WellFormed.remains_setInnerHtml`).
-/

namespace LiveMarkup

/-- A node without the attributes and properties of an element. -/
def NodeData.look : NodeData → NodeData
  | .element e => .element { tag := e.tag }
  | data => data

namespace Document

open Relation

variable {d d' d'' : Document} {x c m p w F : NodeId} {cs cs' : List NodeId} {A : Set NodeId}

/-- The nodes of a list, attributes and properties of elements apart. -/
def looks (d : Document) (cs : List NodeId) : List NodeData :=
  cs.map fun c => (d.data c).look

/-- The siblings after a marker that it owns itself. -/
def instances (d : Document) (m : NodeId) : List NodeId :=
  (d.followingSiblings m).filter fun c => d.owner? c = some m

/-- The children of a node that have no owner. -/
def ownerless (d : Document) (p : NodeId) : List NodeId :=
  (d.children p).filter fun c => d.owner? c = none

theorem looks_append : d.looks (cs ++ cs') = d.looks cs ++ d.looks cs' :=
  List.map_append

theorem WellFormed.owner?_eq_none (hd : d.WellFormed) (h : ∀ w, ¬ d.Owns w x) : d.owner? x = none :=
  Option.eq_none_iff_forall_ne_some.mpr fun w hw => h w (hd.owner?_eq_some_iff.mp hw)

theorem WellFormed.followingSiblings_of_top (hd : d.WellFormed) (htop : ∀ p, ¬ d.Under m p) :
    d.followingSiblings m = [] :=
  List.eq_nil_iff_forall_not_mem.mpr fun x hx => by
    obtain ⟨-, p, hp, -⟩ := hd.mem_followingSiblings hx
    exact htop p hp

/-! ## Nodes that are kept -/

section

open scoped Classical

/-- What stands in order, and is selected for something that is kept, stands in the same order. -/
theorem filter_eq_of_kept {P Q : NodeId → Bool} (h : cs'.filter (· ∈ A) = cs.filter (· ∈ A))
    (hP : ∀ x ∈ cs, P x = true → x ∈ A) (hQ : ∀ x ∈ cs', Q x = true → x ∈ A)
    (hPQ : ∀ x ∈ A, Q x = P x) : cs'.filter Q = cs.filter P := by
  have hkept : ∀ {R : NodeId → Bool} {l : List NodeId}, (∀ x ∈ l, R x = true → x ∈ A) →
      l.filter R = (l.filter (· ∈ A)).filter R := fun {R l} hR => by
    rw [List.filter_filter]
    refine List.filter_congr fun x hx => ?_
    by_cases hRx : R x = true
    · simp [hRx, hR x hx hRx]
    · simp [hRx]
  rw [hkept hQ, h, hkept hP]
  exact List.filter_congr fun x hx => hPQ x (by simpa using (List.mem_filter.mp hx).2)

namespace Keeps

theorem looks_eq (h : Keeps A d d') (hA : Closed A d) (hcs : ∀ c ∈ cs, c ∈ A) :
    d'.looks cs = d.looks cs :=
  List.map_congr_left fun c hc => by rw [h.data_eq hA (hcs c hc)]

/-- The siblings in `A` after a node in `A` stay in order. -/
theorem followingSiblings_filter (h : Keeps A d d') (hA : Closed A d) (hd : d.WellFormed)
    (hd' : d'.WellFormed) (hm : m ∈ A) :
    (d'.followingSiblings m).filter (· ∈ A) = (d.followingSiblings m).filter (· ∈ A) := by
  by_cases hp : ∃ p, d.Under m p
  · obtain ⟨p, hp⟩ := hp
    obtain ⟨L, hL⟩ := hd.followingSiblings_eq hp
    obtain ⟨L', hL'⟩ := hd'.followingSiblings_eq ((h.under_iff hA hm).mpr hp)
    have hsame := h.children_filter hA (hA.parent hm hp)
    have hnd := hd'.nodup_children p
    rw [hL', List.nodup_append] at hnd
    rw [hL, hL', List.filter_append, List.filter_append,
      List.filter_cons_of_pos (by simpa using hm), List.filter_cons_of_pos (by simpa using hm),
      List.append_cons_inj_of_notMem] at hsame
    · exact hsame.2.2
    · exact fun hmem => hnd.2.2 m (List.mem_of_mem_filter hmem) m List.mem_cons_self rfl
    · exact fun hmem => (List.nodup_cons.mp hnd.2.1).1 (List.mem_of_mem_filter hmem)
  · have htop : ∀ p, ¬ d'.Under m p := fun p hmp => hp ⟨p, (h.under_iff hA hm).mp hmp⟩
    rw [hd.followingSiblings_of_top fun p hmp => hp ⟨p, hmp⟩, hd'.followingSiblings_of_top htop]

theorem mem_followingSiblings (h : Keeps A d d') (hA : Closed A d) (hd : d.WellFormed)
    (hd' : d'.WellFormed) (hm : m ∈ A) (hx : x ∈ A) (hmem : x ∈ d'.followingSiblings m) :
    x ∈ d.followingSiblings m := by
  have hfilter : x ∈ (d'.followingSiblings m).filter (· ∈ A) :=
    List.mem_filter.mpr ⟨hmem, decide_eq_true hx⟩
  rw [h.followingSiblings_filter hA hd hd' hm] at hfilter
  exact List.mem_of_mem_filter hfilter

/-- A node that is kept has the same children if all of them were kept. -/
theorem children_eq (h : Keeps A d d') (hA : Closed A d) (hd : d.WellFormed) (hd' : d'.WellFormed)
    (hp : p ∈ A) (hold : ∀ c, d.Under c p → c ∈ A) (hnew : ∀ c, d'.Under c p → c ∈ A) :
    d'.children p = d.children p := by
  have hkept := h.children_filter hA hp
  rwa [List.filter_eq_self.mpr fun c hc => decide_eq_true (hnew c (hd'.mem_children.mp hc)),
    List.filter_eq_self.mpr fun c hc => decide_eq_true (hold c (hd.mem_children.mp hc))] at hkept

/-- The instances of a marker that is kept are the same if all of them were kept. -/
theorem instances_eq (h : Keeps A d d') (hA : Closed A d) (hd : d.WellFormed) (hd' : d'.WellFormed)
    (hm : m ∈ A) (hold : ∀ x ∈ d.followingSiblings m, d.Owns m x → x ∈ A)
    (hnew : ∀ x ∈ d'.followingSiblings m, d'.Owns m x → x ∈ A) :
    d'.instances m = d.instances m ∧ d'.looks (d.instances m) = d.looks (d.instances m) := by
  refine ⟨filter_eq_of_kept (h.followingSiblings_filter hA hd hd' hm) (fun x hx hw => ?_)
    (fun x hx hw => ?_) fun x hx => by rw [h.owner?_eq hA hx], h.looks_eq hA fun x hx => ?_⟩
  · exact hold x hx (hd.owner?_eq_some_iff.mp (of_decide_eq_true hw))
  · exact hnew x hx (hd'.owner?_eq_some_iff.mp (of_decide_eq_true hw))
  · obtain ⟨hx, hw⟩ := List.mem_filter.mp hx
    exact hold x hx (hd.owner?_eq_some_iff.mp (of_decide_eq_true hw))

/-- The children without an owner of a node that is kept are the same if all of them were kept. -/
theorem ownerless_eq (h : Keeps A d d') (hA : Closed A d) (hF : F ∈ A)
    (hold : ∀ x ∈ d.children F, d.owner? x = none → x ∈ A)
    (hnew : ∀ x ∈ d'.children F, d'.owner? x = none → x ∈ A) :
    d'.ownerless F = d.ownerless F ∧ d'.looks (d.ownerless F) = d.looks (d.ownerless F) := by
  refine ⟨filter_eq_of_kept (h.children_filter hA hF) (fun x hx hw => ?_) (fun x hx hw => ?_)
    fun x hx => by rw [h.owner?_eq hA hx], h.looks_eq hA fun x hx => ?_⟩
  · exact hold x hx (of_decide_eq_true hw)
  · exact hnew x hx (of_decide_eq_true hw)
  · obtain ⟨hx, hw⟩ := List.mem_filter.mp hx
    exact hold x hx (of_decide_eq_true hw)

end Keeps

end

/-! ## Clearing -/

theorem WellFormed.live_clearOwned_iff (hd : d.WellFormed) :
    (d.clearOwned m).2.Live x ↔ d.Live x ∧ x ∉ d.below (d.ownedSiblings m) := by
  obtain ⟨-, h⟩ := hd.clearOwned_spec m
  constructor
  · rintro ⟨t, ht⟩
    obtain ⟨hx, s, hs, -⟩ := (h.holds x t).mp ht
    exact ⟨hs.live, hx⟩
  · rintro ⟨⟨s, hs⟩, hx⟩
    exact ⟨_, (h.holds x _).mpr ⟨hx, s, hs, rfl⟩⟩

/-- What stands below a node that stays is removed with what it stands below only, or as owned. -/
theorem WellFormed.mem_ownedSiblings_of_under (hd : d.WellFormed) (hx : d.Under x p)
    (hgone : x ∈ d.below (d.ownedSiblings m)) (hp : p ∉ d.below (d.ownedSiblings m)) :
    x ∈ d.ownedSiblings m := by
  obtain ⟨c, hc, hxc⟩ := hgone
  rcases hxc.cases_head with rfl | ⟨q, hq, hqc⟩
  · exact hc
  · obtain rfl := hx.unique (hd.child hq)
    exact absurd ⟨c, hc, hqc⟩ hp

theorem WellFormed.keeps_live_clearOwned (hd : d.WellFormed) (m : NodeId) :
    Closed {x | d.Live x ∧ x ∉ d.below (d.ownedSiblings m)} d ∧
      Keeps {x | d.Live x ∧ x ∉ d.below (d.ownedSiblings m)} d (d.clearOwned m).2 := by
  obtain ⟨-, h⟩ := hd.clearOwned_spec m
  exact ⟨h.closed hd (hd.clearOwned m).1.wellFormed, h.keeps fun _ hx => hx.2⟩

/-- A marker that is cleared has no instances. -/
theorem WellFormed.instances_clearOwned (hd : d.WellFormed) (hm : d.Live m) :
    (d.clearOwned m).2.instances m = [] := by
  have hd' := (hd.clearOwned m).1.wellFormed
  obtain ⟨hA, hk⟩ := hd.keeps_live_clearOwned m
  have hmA := hd.live_clearOwned_iff.mp ((hd.keeps_clearOwned hm).live .refl hm)
  refine List.filter_eq_nil_iff.mpr fun x hx hw => ?_
  obtain ⟨-, p, -, hxp⟩ := hd'.mem_followingSiblings hx
  have hxA := hd.live_clearOwned_iff.mp hxp.live
  have hbeside := hk.mem_followingSiblings hA hd hd' hmA hxA hx
  have howner := of_decide_eq_true hw
  rw [hk.owner?_eq hA hxA] at howner
  exact hxA.2 ⟨x, mem_ownedAmong hbeside howner (List.mem_singleton_self m), .refl⟩

/-- What another marker owns is not cleared, as long as it stays. -/
theorem WellFormed.instances_clearOwned_of_ne (hd : d.WellFormed) (hx : (d.clearOwned m).2.Live x)
    (hne : x ≠ m) : (d.clearOwned m).2.instances x = d.instances x ∧
      (d.clearOwned m).2.looks (d.instances x) = d.looks (d.instances x) := by
  have hd' := (hd.clearOwned m).1.wellFormed
  obtain ⟨hA, hk⟩ := hd.keeps_live_clearOwned m
  have hxA := hd.live_clearOwned_iff.mp hx
  refine hk.instances_eq hA hd hd' hxA (fun y hy hw => ?_) fun y hy _ => ?_
  · obtain ⟨-, p, hxp, hyp⟩ := hd.mem_followingSiblings hy
    refine ⟨hyp.live, fun hgone => ?_⟩
    have hmem := hd.mem_ownedSiblings_of_under hyp hgone (hA.parent hxA hxp).2
    obtain ⟨w, howner, hw'⟩ := exists_owner_of_mem_ownedAmong hmem
    obtain rfl := Option.some.inj (howner.symm.trans (hd.owner?_eq_some_iff.mpr hw))
    rcases hw' with hw' | hw'
    · exact hne (List.mem_singleton.mp hw')
    · exact hxA.2 ⟨w, hw', .refl⟩
  · obtain ⟨-, p, -, hyp⟩ := hd'.mem_followingSiblings hy
    exact hd.live_clearOwned_iff.mp hyp.live

/-- Children without an owner are not cleared. -/
theorem WellFormed.ownerless_clearOwned (hd : d.WellFormed) (hF : (d.clearOwned m).2.Live F) :
    (d.clearOwned m).2.ownerless F = d.ownerless F ∧
      (d.clearOwned m).2.looks (d.ownerless F) = d.looks (d.ownerless F) := by
  have hd' := (hd.clearOwned m).1.wellFormed
  obtain ⟨hA, hk⟩ := hd.keeps_live_clearOwned m
  have hFA := hd.live_clearOwned_iff.mp hF
  refine hk.ownerless_eq hA hFA (fun y hy hnone => ?_) fun y hy _ => ?_
  · have hyF := hd.mem_children.mp hy
    refine ⟨hyF.live, fun hgone => ?_⟩
    obtain ⟨w, howner, -⟩ :=
      exists_owner_of_mem_ownedAmong (hd.mem_ownedSiblings_of_under hyF hgone hFA.2)
    rw [hnone] at howner
    cases howner
  · exact hd.live_clearOwned_iff.mp (hd'.mem_children.mp hy).live

/-! ## Attributes and properties -/

/-- Nothing but attributes and properties of elements has changed. -/
structure Restyled (d d' : Document) : Prop where
  parent : ∀ x, d'.parent? x = d.parent? x
  children : ∀ x, d'.children x = d.children x
  owner : ∀ x, d'.owner? x = d.owner? x
  look : ∀ x, (d'.data x).look = (d.data x).look

namespace Restyled

theorem refl (d : Document) : Restyled d d :=
  ⟨fun _ => rfl, fun _ => rfl, fun _ => rfl, fun _ => rfl⟩

theorem trans (h : Restyled d d') (h' : Restyled d' d'') : Restyled d d'' where
  parent x := (h'.parent x).trans (h.parent x)
  children x := (h'.children x).trans (h.children x)
  owner x := (h'.owner x).trans (h.owner x)
  look x := (h'.look x).trans (h.look x)

theorem update {f : Slot → Slot} (hgen : ∀ s, (f s).generation = s.generation)
    (hparent : ∀ s, (f s).parent = s.parent) (hchildren : ∀ s, (f s).children = s.children)
    (howner : ∀ s, (f s).owner = s.owner) (hlook : ∀ s, (f s).data.look = s.data.look) (d : Document)
    (c : NodeId) : Restyled d (d.update c f) := by
  have hslot := fun x => slot?_update (d := d) (c := c) hgen x
  constructor <;> intro x
  · rw [parent?, parent?, hslot]
    rcases d.slot? x with _ | s
    · rfl
    · by_cases hx : x = c <;> simp [hx, hparent]
  · rw [Document.children, Document.children, hslot]
    rcases d.slot? x with _ | s
    · rfl
    · by_cases hx : x = c <;> simp [hx, hchildren]
  · rw [owner?, owner?, hslot]
    rcases d.slot? x with _ | s
    · rfl
    · by_cases hx : x = c <;> simp [hx, howner]
  · rw [Document.data, Document.data, hslot]
    rcases d.slot? x with _ | s
    · rfl
    · by_cases hx : x = c <;> simp [hx, hlook]

theorem updateElement {f : Element → Element} (hf : ∀ e, (f e).tag = e.tag) (d : Document)
    (c : NodeId) : Restyled d (d.updateElement c f) := by
  unfold Document.updateElement updateData
  refine update ?_ ?_ ?_ ?_ (fun s => ?_) d c
  iterate 4 exact fun _ => rfl
  rcases s.data with _ | _ | e | _ | _ | _ <;> simp [NodeData.look, hf]

theorem updateElements {f : Element → Element} (hf : ∀ e, (f e).tag = e.tag) :
    ∀ (xs : List NodeId) (d : Document), Restyled d (xs.foldl (fun d x => d.updateElement x f) d)
  | [], d => refl d
  | x :: xs, d => (updateElement hf d x).trans (updateElements hf xs _)

theorem looks_eq (h : Restyled d d') : d'.looks cs = d.looks cs :=
  List.map_congr_left fun c _ => h.look c

theorem ownerless_eq (h : Restyled d d') : d'.ownerless F = d.ownerless F := by
  simp only [ownerless, h.children, h.owner]

theorem instances_eq (h : Restyled d d') : d'.instances m = d.instances m := by
  simp only [instances, followingSiblings, position?, h.parent, h.children, h.owner]

theorem owns_iff (h : Restyled d d') (hd : d.WellFormed) (hd' : d'.WellFormed) :
    d'.Owns w x ↔ d.Owns w x := by
  rw [← hd.owner?_eq_some_iff, ← hd'.owner?_eq_some_iff, h.owner]

end Restyled

/-! ## Content after a marker -/

/-- Content that was made aside went after a marker.  What was there is kept; what is new, and stands
right below something that was there, has an owner; and what owns something new is the marker or new
itself. -/
structure Filled (m : NodeId) (d d' : Document) : Prop where
  wellFormed : d'.WellFormed
  keeps : Keeps {x | d.Live x} d d'
  owned : ∀ x q, d'.Under x q → d.Live q → ¬ d.Live x → ∃ w, d'.Owns w x
  owner : ∀ x w, d'.Owns w x → ¬ d.Live x → w = m ∨ ¬ d.Live w

namespace Filled

theorem refl (hd : d.WellFormed) (m : NodeId) : Filled m d d where
  wellFormed := hd
  keeps := .refl _ d
  owned x q hx _ hnew := absurd hx.live hnew
  owner x w hw hnew := by
    obtain ⟨s, hs, -⟩ := hw
    exact absurd hs.live hnew

/-- No other marker gets an instance. -/
theorem instances_eq (h : Filled m d d') (hd : d.WellFormed) (hx : d.Live x) (hne : x ≠ m) :
    d'.instances x = d.instances x ∧ d'.looks (d.instances x) = d.looks (d.instances x) := by
  refine h.keeps.instances_eq hd.closed_live hd h.wellFormed hx (fun y hy _ => ?_) fun y _ hw => ?_
  · obtain ⟨-, p, -, hyp⟩ := hd.mem_followingSiblings hy
    exact hyp.live
  · by_contra hnew
    rcases h.owner y x hw hnew with rfl | hx'
    · exact hne rfl
    · exact hx' hx

/-- No node gets a child without an owner. -/
theorem ownerless_eq (h : Filled m d d') (hd : d.WellFormed) (hF : d.Live F) :
    d'.ownerless F = d.ownerless F ∧ d'.looks (d.ownerless F) = d.looks (d.ownerless F) := by
  refine h.keeps.ownerless_eq hd.closed_live hF (fun y hy _ => (hd.mem_children.mp hy).live)
    fun y hy hnone => ?_
  by_contra hnew
  obtain ⟨w, hw⟩ := h.owned y F (h.wellFormed.mem_children.mp hy) hF hnew
  rw [h.wellFormed.owner?_eq_some_iff.mpr hw] at hnone
  cases hnone

end Filled

/-! ## While a marker stays -/

/-- A marker looks the same and has the same instances, and they look the same. -/
structure SameInstances (m : NodeId) (d d' : Document) : Prop where
  look_eq : (d'.data m).look = (d.data m).look
  instances_eq : d'.instances m = d.instances m
  looks_eq : d'.looks (d.instances m) = d.looks (d.instances m)

theorem SameInstances.refl (m : NodeId) (d : Document) : SameInstances m d d :=
  ⟨rfl, rfl, rfl⟩

theorem SameInstances.trans (h : SameInstances m d d') (h' : SameInstances m d' d'') :
    SameInstances m d d'' where
  look_eq := h'.look_eq.trans h.look_eq
  instances_eq := h'.instances_eq.trans h.instances_eq
  looks_eq := by
    have hlooks := h'.looks_eq
    rw [h.instances_eq] at hlooks
    exact hlooks.trans h.looks_eq

theorem Restyled.sameInstances (h : Restyled d d') (m : NodeId) : SameInstances m d d' :=
  ⟨h.look m, h.instances_eq, h.looks_eq⟩

/-- A marker stands where it stood, below the same nodes, and its instances are the same. -/
structure Remains (m : NodeId) (d d' : Document) : Prop extends SameInstances m d d' where
  wellFormed : d'.WellFormed
  keeps : Keeps {x | ReflTransGen d.Under m x} d d'

/-- Changes that keep what stands above a node, one after the other. -/
theorem Keeps.trans_above (h : Keeps {x | ReflTransGen d.Under m x} d d')
    (h' : Keeps {x | ReflTransGen d'.Under m x} d' d'') (hd : d.WellFormed) (hm : d.Live m) :
    Keeps {x | ReflTransGen d.Under m x} d d'' := by
  refine h.trans (h'.mono fun x hx => ?_)
  rcases reflTransGen_iff_eq_or_transGen.mp hx with rfl | hx
  · exact ReflTransGen.refl
  · exact ((h.transGen_iff (hd.closed_above hm) ReflTransGen.refl).mpr hx).to_reflTransGen

theorem Remains.refl (hd : d.WellFormed) (m : NodeId) : Remains m d d :=
  ⟨.refl m d, hd, .refl _ d⟩

theorem Remains.trans (h : Remains m d d') (h' : Remains m d' d'') (hd : d.WellFormed)
    (hm : d.Live m) : Remains m d d'' :=
  ⟨h.toSameInstances.trans h'.toSameInstances, h'.wellFormed, h.keeps.trans_above h'.keeps hd hm⟩

theorem Remains.live (h : Remains m d d') (hm : d.Live m) : d'.Live m :=
  h.keeps.live .refl hm

/-- A node that stays when a marker is cleared stays where it is. -/
theorem WellFormed.keeps_above_clearOwned (hd : d.WellFormed) (hm : (d.clearOwned w).2.Live m) :
    Keeps {x | ReflTransGen d.Under m x} d (d.clearOwned w).2 := by
  obtain ⟨hA, hk⟩ := hd.keeps_live_clearOwned w
  exact hk.mono fun x hx => hA.above (hd.live_clearOwned_iff.mp hm) hx

/-- What a marker shows anew leaves in place what stayed when it was cleared. -/
theorem Filled.keeps_above (h : Filled w (d.clearOwned w).2 d') (hd : d.WellFormed)
    (hm : (d.clearOwned w).2.Live m) : Keeps {x | ReflTransGen d.Under m x} d d' := by
  have hm0 := (hd.live_clearOwned_iff.mp hm).1
  have hd0 := (hd.clearOwned w).1.wellFormed
  exact (hd.keeps_above_clearOwned hm).trans_above (h.keeps.mono fun x hx => hd0.closed_live.above hm hx)
    hd hm0

/-- Another marker has its turn. -/
theorem Filled.remains (h : Filled w (d.clearOwned w).2 d') (hd : d.WellFormed)
    (hm : (d.clearOwned w).2.Live m) (hne : m ≠ w) : Remains m d d' := by
  obtain ⟨hlist, hlooks⟩ := hd.instances_clearOwned_of_ne hm hne
  obtain ⟨hlist', hlooks'⟩ := h.instances_eq (hd.clearOwned w).1.wellFormed hm hne
  rw [hlist] at hlist' hlooks'
  have habove := h.keeps_above hd hm
  have hdata := habove.data_eq (hd.closed_above (hd.live_clearOwned_iff.mp hm).1) ReflTransGen.refl
  exact ⟨⟨congrArg NodeData.look hdata, hlist', hlooks'.trans hlooks⟩, h.wellFormed, habove⟩

/-- A text is shown in an element that a marker does not stand below. -/
theorem WellFormed.remains_setInnerHtml (hd : d.WellFormed) (hc : d.Live c) (hm : d.Live m)
    (hmc : ¬ TransGen d.Under m c) (html : List Char) : Remains m d (d.setInnerHtml c html) := by
  have hconf := hd.confined_setInnerHtml hc html
  have hA := hd.closed_not_below c
  have hbeside : ∀ {d' : Document} {y}, d'.WellFormed → ¬ TransGen d'.Under m c →
      y ∈ d'.followingSiblings m → ¬ TransGen d'.Under y c := fun hd' hmc hy hyc => by
    obtain ⟨-, p, hmp, hyp⟩ := hd'.mem_followingSiblings hy
    obtain ⟨q, hq, hqc⟩ := TransGen.head'_iff.mp hyc
    obtain rfl := hyp.unique hq
    exact hmc (.head' hmp hqc)
  have hmc' : ¬ TransGen (d.setInnerHtml c html).Under m c :=
    (hconf.keeps.transGen_iff hA ⟨hm, hmc⟩).not.mpr hmc
  obtain ⟨hlist, hlooks⟩ := hconf.keeps.instances_eq hA hd hconf.wellFormed ⟨hm, hmc⟩
    (fun y hy _ => by
      obtain ⟨-, p, -, hyp⟩ := hd.mem_followingSiblings hy
      exact ⟨hyp.live, hbeside hd hmc hy⟩)
    fun y hy _ => by
      obtain ⟨-, p, -, hyp⟩ := hconf.wellFormed.mem_followingSiblings hy
      exact (hconf.reached y hyp.live).resolve_left (hbeside hconf.wellFormed hmc' hy)
  have hdata := hconf.keeps.data_eq hA ⟨hm, hmc⟩
  exact ⟨⟨congrArg NodeData.look hdata, hlist, hlooks⟩, hconf.wellFormed,
    hconf.keeps.mono fun x hx => hA.above ⟨hm, hmc⟩ hx⟩

end Document

end LiveMarkup
