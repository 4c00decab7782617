import LiveMarkup.Proofs.Document.Settled
import LiveMarkup.Proofs.Document.Stocked

/-!
# Operations that leave other markers alone

The operations of a pass are orderly: content is made aside, and goes below a node only if neither owns
what the other has for children (`Operation.Orderly`).  Such an operation changes the instances of the
marker that it is about, and of no other one that stays (`Operation.Orderly.sameInstances`), and so do
several of them (`AllOrderly.sameInstances`).

That content and the children of a node do not own each other comes from how content is made
(`Stocked.apart`): what is new owns nothing that was there before, unless an owner was not settled.
-/

namespace LiveMarkup.Document

open Relation Operation

variable {d d' d0 : Document} {x y c m p q w F : NodeId} {ls : List NodeData} {L R : List NodeId}
  {op : Operation} {a b ops : List Operation} {n : Nat}

/-! ## Content that goes elsewhere -/

/-- No child of one node owns a child of the other. -/
def Apart (d : Document) (F p : NodeId) : Prop :=
  ∀ x y, d.Under x F → d.Under y p → d.owner? x ≠ some y ∧ d.owner? y ≠ some x

/-- Content that was made aside is apart from what was there, if the owners of that were settled. -/
theorem Stocked.apart (h : Stocked F ls d d') (hd : d.WellFormed) (hlegal : AllLegal d ops)
    (hrun : run d ops = d') (hsettled : d.OwnersSettled ops.length) (hp : d.Live p) : d'.Apart F p := by
  intro x y hx hy
  have hxnew := h.toAside.not_live_of_mem_children hd (h.wellFormed.mem_children.mpr hx)
  have hyold : d.Live y := by
    have hmem := h.wellFormed.mem_children.mpr hy
    rw [h.toAside.children_eq hd hp] at hmem
    exact (hd.mem_children.mp hmem).live
  refine ⟨fun howner => ?_, fun howner => ?_⟩
  · exact h.owner x y (h.wellFormed.owner?_eq_some_iff.mp howner) hxnew hyold
  · rw [h.keeps.owner?_eq hd.closed_live hyold] at howner
    rcases hsettled y x howner with howned | hx'
    · exact hxnew howned.live
    · exact hxnew (hx'.live hd hlegal le_rfl (by rw [hrun]; exact hx.live))

/-- The children of a fragment have come to stand below `p`, between `L` and `R`, the fragment is gone,
and a marker owns what it owned. -/
structure Delivered (m F p : NodeId) (L R : List NodeId) (d d' : Document) : Prop
    extends Emptied F p d d' where
  top : ∀ q, ¬ d.Under F q
  here : d'.children p = L ++ (d.children F ++ R)
  elsewhere : ∀ q, q ≠ p → d'.Live q → d'.children q = d.children q
  data_eq : ∀ x, d'.Live x → d'.data x = d.data x
  owner_iff : ∀ x, d'.Live x → (d'.owner? x = some m ↔ d.owner? x = some m)

theorem Retains.data_eq {new : Set NodeId} (h : Retains new d d') (hx : d'.Live x) :
    d'.data x = d.data x := by
  obtain ⟨t, ht⟩ := hx
  obtain ⟨s, hs, hdata, -⟩ := h x t ht
  rw [ht.data_eq, hs.data_eq, hdata]

namespace Delivered

variable (h : Delivered m F p L R d d')
include h

/-- A node that stands after another one is there afterwards. -/
theorem live_of_mem_followingSiblings (hd : d.WellFormed) (hx : x ∈ d.followingSiblings m) :
    d'.Live x := by
  obtain ⟨-, q, -, hxq⟩ := hd.mem_followingSiblings hx
  exact (h.live_iff x).mpr ⟨hxq.live, fun heq => h.top q (heq ▸ hxq)⟩

/-- The siblings after a marker are those that followed it, and perhaps some that it does not own. -/
theorem instances_eq_of_filter {xs : List NodeId} (hxs : d'.followingSiblings m = xs)
    (hfilter : (xs.filter fun c => d.owner? c = some m) = d.instances m) :
    d'.instances m = d.instances m := by
  rw [instances, hxs, ← hfilter]
  refine List.filter_congr fun c hc => ?_
  obtain ⟨-, q, -, hcq⟩ := h.wellFormed.mem_followingSiblings (hxs ▸ hc)
  simp only [h.owner_iff c hcq.live]

/-- A marker that stays has the same instances when content goes to its place or away from it. -/
theorem sameInstances (hd : d.WellFormed) (hm : d'.Live m) (hp : d.children p = L ++ R)
    (hapart : d.Apart F p) : SameInstances m d d' := by
  have hnone : ∀ {cs : List NodeId}, (∀ c ∈ cs, d.owner? c ≠ some m) →
      cs.filter (fun c => d.owner? c = some m) = [] := fun h =>
    List.filter_eq_nil_iff.mpr fun c hc hw => h c hc (of_decide_eq_true hw)
  have hR : ∀ c ∈ R, d.Under c p := fun c hc => hd.mem_children.mp (hp ▸ List.mem_append_right L hc)
  refine ⟨congrArg NodeData.look (h.data_eq m hm), ?_, List.map_congr_left fun c hc => ?_⟩
  · by_cases hmF : d.Under m F
    · -- it goes along with the content
      obtain ⟨A, hA⟩ := hd.followingSiblings_eq hmF
      have hafter := h.wellFormed.followingSiblings_of_children (p := p) (L := L ++ A) (m := m)
        (R := d.followingSiblings m ++ R) (by rw [h.here, hA]; simp)
      refine h.instances_eq_of_filter hafter ?_
      rw [List.filter_append, hnone fun c hc => (hapart m c hmF (hR c hc)).2, List.append_nil, instances]
    · by_cases hmp : d.Under m p
      · obtain ⟨A, hA⟩ := hd.followingSiblings_eq hmp
        have hin : ∀ c ∈ d.children F, d.owner? c ≠ some m := fun c hc =>
          (hapart c m (hd.mem_children.mp hc) hmp).1
        rw [hp] at hA
        rcases List.append_eq_append_iff.mp hA with ⟨B, rfl, hB⟩ | ⟨B, rfl, hB⟩
        · -- the content goes before it
          have hafter := h.wellFormed.followingSiblings_of_children (p := p)
            (L := L ++ (d.children F ++ B)) (m := m) (R := d.followingSiblings m)
            (by rw [h.here, hB]; simp)
          exact h.instances_eq_of_filter hafter rfl
        · rcases List.cons_eq_append_iff.mp hB with ⟨rfl, rfl⟩ | ⟨B, rfl, hfollow⟩
          · have hafter := h.wellFormed.followingSiblings_of_children (p := p)
              (L := A ++ d.children F) (m := m) (R := d.followingSiblings m)
              (by rw [h.here]; simp)
            exact h.instances_eq_of_filter hafter rfl
          · -- the content goes after it
            have hafter := h.wellFormed.followingSiblings_of_children (p := p) (L := A) (m := m)
              (R := B ++ (d.children F ++ R)) (by rw [h.here]; simp)
            refine h.instances_eq_of_filter hafter ?_
            rw [instances, hfollow, List.filter_append, List.filter_append, hnone hin, List.nil_append,
              List.filter_append]
      · have hunder : ∀ q, d'.Under m q ↔ d.Under m q := fun q => by
          rw [h.under_iff]
          simp [hmF]
        by_cases htop : ∃ q, d.Under m q
        · obtain ⟨q, hq⟩ := htop
          have hq' := (hunder q).mpr hq
          obtain ⟨A, hA⟩ := hd.followingSiblings_eq hq
          have hqp : q ≠ p := fun heq => hmp (heq ▸ hq)
          have hafter := h.wellFormed.followingSiblings_of_children (p := q) (L := A) (m := m)
            (R := d.followingSiblings m)
            (by rw [h.elsewhere q hqp (h.wellFormed.closed_live.parent hm hq'), hA])
          exact h.instances_eq_of_filter hafter rfl
        · rw [instances, instances, hd.followingSiblings_of_top fun q hq => htop ⟨q, hq⟩,
            h.wellFormed.followingSiblings_of_top fun q hq => htop ⟨q, (hunder q).mp hq⟩]
          rfl
  · rw [h.data_eq c (h.live_of_mem_followingSiblings hd (List.mem_of_mem_filter hc))]

end Delivered

namespace Aside

variable (h : Aside F d0 d) (hd : d0.WellFormed)
include h hd

theorem delivered_appendFragment (hp : d0.Live p) (m : NodeId) :
    Delivered m F p (d.children p) [] d (d.appendFragment p F) := by
  obtain ⟨hhere, helse, howns⟩ := h.appended hd hp
  have hemptied := h.emptied_appendFragment hd hp
  refine ⟨hemptied, fun _ => h.not_under, ?_, helse,
    fun x => (retains_appendFragment d p F).data_eq, fun x hx => ?_⟩
  · rw [hhere, List.append_nil, h.children_eq hd hp]
  · rw [hemptied.wellFormed.owner?_eq_some_iff, h.wellFormed.owner?_eq_some_iff, howns]
    exact and_iff_right ((hemptied.live_iff x).mp hx).2

theorem delivered_insertOwned (hw : d0.Under w p) (hne : m ≠ w) : ∃ L,
    d.children p = (L ++ [w]) ++ d.followingSiblings w ∧
      Delivered m F p (L ++ [w]) (d.followingSiblings w) d (d.insertOwned w F).2 := by
  obtain ⟨L, hL, hout, hins⟩ := h.inserted hd hw
  have hemptied := h.emptied_insertOwned hd hw
  have hnot : ∀ {q}, F ∉ d.children q := fun hmem => h.not_under (h.wellFormed.mem_children.mp hmem)
  have hkept : ∀ {cs : List NodeId}, (∀ c ∈ cs, c ∈ d.children p) → cs.filter (· ≠ F) = cs := fun hcs =>
    List.filter_eq_self.mpr fun c hc => decide_eq_true fun heq => hnot (heq ▸ hcs c hc)
  have hsplit : d.children p = (L ++ [w]) ++ d.followingSiblings w := by rw [hL]; simp
  refine ⟨L, hsplit, hemptied, fun _ => h.not_under, ?_, fun q hqp hq => ?_,
    fun x => (retains_insertOwned d w F).data_eq, fun x hx => ?_⟩
  · rw [hins.children_around h.wellFormed hL hout,
      hkept fun c hc => by rw [hL]; exact List.mem_append_left _ hc,
      hkept fun c hc => by rw [hsplit]; exact List.mem_append_right _ hc]
    simp
  · obtain ⟨t, ht⟩ := hq
    obtain ⟨hqF, s, hs, rfl⟩ := (hins.holds q t).mp ht
    have hout : ∀ c ∈ s.children, c ∉ d.children F ∧ c ≠ F := fun c hc => by
      have hcq := h.wellFormed.mem_children.mp (hs.children_eq ▸ hc)
      exact ⟨fun hcF => hqF (hcq.unique (h.wellFormed.mem_children.mp hcF)),
        fun heq => h.not_under (heq ▸ hcq)⟩
    rw [ht.children_eq, hs.children_eq, pruned, placed]
    simp only [if_neg hqp, List.filter_filter]
    refine List.filter_eq_self.mpr fun c hc => ?_
    simp [hout c hc]
  · obtain ⟨hlive, hxF⟩ := (hemptied.live_iff x).mp hx
    rw [hins.owner?_eq hlive hxF]
    split_ifs
    · rcases d.owner? x with _ | u
      · simp [hne.symm]
      · rfl
    · rfl

end Aside

/-! ## Orderly operations -/

/-- The marker that an operation is about. -/
def Operation.marker? : Operation → Option NodeId
  | clearOwned m => some m
  | insertOwned m _ => some m
  | _ => none

/-- The operations of a pass: content is made aside and goes to nodes that were there before, what a
marker owns or what stands in an element is removed, and elements get attributes and properties. -/
def Operation.Orderly (d : Document) : Operation → Prop
  | createFragment _ => True
  | clearOwned m => d.Live m
  | setInnerHtml c _ => d.Live c
  | updateData _ f => ∀ data, (f data).look = data.look
  | insertOwned m F => ∃ d0 p, d0.WellFormed ∧ Aside F d0 d ∧ d0.Under m p ∧ d.Apart F p
  | appendFragment p F => ∃ d0, d0.WellFormed ∧ Aside F d0 d ∧ d0.Live p ∧ d.Apart F p
  | _ => False

/-- Each operation is orderly when its turn comes. -/
def AllOrderly : Document → List Operation → Prop
  | _, [] => True
  | d, op :: ops => op.Orderly d ∧ AllOrderly (op.apply d) ops

/-- What is made aside changes no instances. -/
theorem Aside.sameInstances (h : Aside F d d') (hd : d.WellFormed) (hm : d.Live m) :
    SameInstances m d d' := by
  obtain ⟨hlist, hlooks⟩ := h.keeps.instances_eq hd.closed_live hd h.wellFormed hm
    (fun y hy _ => (hd.mem_followingSiblings hy).2.choose_spec.2.live)
    fun y hy _ => h.live_of_mem_followingSiblings hd hm hy
  exact ⟨congrArg NodeData.look (h.keeps.data_eq hd.closed_live hm), hlist, hlooks⟩

/-- What stands below an element is gone when it gets new content. -/
theorem WellFormed.not_below_of_live_setInnerHtml (hd : d.WellFormed) (hc : d.Live c) (hm : d.Live m)
    {html : List Char} (hm' : (d.setInnerHtml c html).Live m) : ¬ TransGen d.Under m c := fun hmc => by
  have hstays : m ∈ Stays d [.setInnerHtml c html] :=
    mem_stays_cons.mpr ⟨hm, mem_stays_nil.mpr hm'⟩
  have hpruned := hd.toDownward.removeChildren hc
  obtain ⟨hsteady, hissued, -⟩ := hd.steady_removeChildren hc.issued
  have hgrows := WellFormed.graftAll (Tree.parse html) hsteady.wellFormed hissued
  obtain ⟨t, ht⟩ := hsteady.tidy.freed.live_of_grown hgrows.grown hd.toSound hm hm'
  obtain ⟨q, hmq, hqc⟩ := TransGen.tail'_iff.mp hmc
  refine ((hpruned.holds m t).mp ht).1 ⟨q, hd.mem_children_iff.mpr (hd.parent hqc), ?_⟩
  exact ReflTransGen.mono (fun _ _ => hd.parent) _ _ hmq

/-- An orderly operation leaves the instances of a marker that stays as they are, unless it is about this
marker. -/
theorem Operation.Orderly.sameInstances (h : op.Orderly d) (hd : d.WellFormed) (hm : d.Live m)
    (hm' : (op.apply d).Live m) (hne : op.marker? ≠ some m) : SameInstances m d (op.apply d) := by
  cases op with
  | createFragment html => exact (hd.aside_createFragment html).sameInstances hd hm
  | clearOwned w =>
    obtain ⟨hlist, hlooks⟩ := hd.instances_clearOwned_of_ne hm' fun heq => hne (heq ▸ rfl)
    exact ⟨congrArg NodeData.look ((retains_clearOwned d w).data_eq hm'), hlist, hlooks⟩
  | setInnerHtml c html =>
    exact (hd.remains_setInnerHtml h hm (hd.not_below_of_live_setInnerHtml h hm hm') html).toSameInstances
  | updateData c f =>
    have hrestyled : Restyled d (d.updateData c f) := by
      unfold Document.updateData
      refine .update ?_ ?_ ?_ ?_ (fun s => h s.data) d c <;> exact fun _ => rfl
    exact hrestyled.sameInstances m
  | insertOwned w F =>
    obtain ⟨d0, p, hd0, haside, hw, hapart⟩ := h
    obtain ⟨L, hp, hdelivered⟩ :=
      haside.delivered_insertOwned hd0 hw (m := m) fun heq => hne (heq ▸ rfl)
    exact hdelivered.sameInstances hd hm' hp hapart
  | appendFragment p F =>
    obtain ⟨d0, hd0, haside, hp, hapart⟩ := h
    exact (haside.delivered_appendFragment hd0 hp m).sameInstances hd hm' (List.append_nil _).symm hapart
  | _ => exact h.elim

/-- An orderly operation leaves the look of a node that stays as it is. -/
theorem Operation.Orderly.look_eq (h : op.Orderly d) (hd : d.WellFormed) (hm : d.Live m)
    (hm' : (op.apply d).Live m) : ((op.apply d).data m).look = (d.data m).look := by
  by_cases hne : op.marker? = some m
  · cases op with
    | clearOwned w => exact congrArg NodeData.look ((retains_clearOwned d w).data_eq hm')
    | insertOwned w F => exact congrArg NodeData.look ((retains_insertOwned d w F).data_eq hm')
    | _ => cases hne
  · exact (h.sameInstances hd hm hm' hne).look_eq

theorem allOrderly_append : AllOrderly d (a ++ b) ↔ AllOrderly d a ∧ AllOrderly (run d a) b := by
  induction a generalizing d with
  | nil => exact (and_iff_right trivial).symm
  | cons op a ih => rw [List.cons_append, AllOrderly, AllOrderly, ih, and_assoc]; rfl

/-- Orderly operations, one after the other, leave the instances of a marker that stays as they are if
none of them is about it. -/
theorem AllOrderly.sameInstances (h : AllOrderly d ops) (hd : d.WellFormed) (hlegal : AllLegal d ops)
    (hm : m ∈ Stays d ops) (hne : ∀ op ∈ ops, op.marker? ≠ some m) : SameInstances m d (run d ops) := by
  induction ops generalizing d with
  | nil => exact .refl m d
  | cons op ops ih =>
    obtain ⟨hm, hrest⟩ := mem_stays_cons.mp hm
    have hstep := h.1.sameInstances hd hm (live_of_mem_stays hrest) (hne op List.mem_cons_self)
    exact hstep.trans (ih h.2 (hlegal.1.sane hd).wellFormed hlegal.2 hrest
      fun op hop => hne op (List.mem_cons_of_mem _ hop))

/-- Orderly operations leave the look of a node that stays as it is. -/
theorem AllOrderly.look_eq (h : AllOrderly d ops) (hd : d.WellFormed) (hlegal : AllLegal d ops)
    (hm : m ∈ Stays d ops) : ((run d ops).data m).look = (d.data m).look := by
  induction ops generalizing d with
  | nil => rfl
  | cons op ops ih =>
    obtain ⟨hm, hrest⟩ := mem_stays_cons.mp hm
    exact (ih h.2 (hlegal.1.sane hd).wellFormed hlegal.2 hrest).trans
      (h.1.look_eq hd hm (live_of_mem_stays hrest))

/-- Markers that become owners are live. -/
theorem Operation.Orderly.owners_live (h : op.Orderly d) : ∀ w ∈ op.owners, d.Live w := by
  cases op with
  | insertOwned m F =>
    obtain ⟨d0, p, -, haside, hm, -⟩ := h
    rintro w rfl
    exact haside.keeps.live hm.live hm.live
  | setOwner => exact h.elim
  | _ => exact fun w hw => hw.elim

theorem AllOrderly.ownersLive (h : AllOrderly d ops) : OwnersLive d ops := by
  induction ops generalizing d with
  | nil => trivial
  | cons op ops ih => exact ⟨h.1.owners_live, ih h.2⟩

/-- Owners stay settled for the operations that are left. -/
theorem AllOrderly.ownersSettled (h : AllOrderly d ops) (hd : d.WellFormed) (hlegal : AllLegal d ops)
    (hsettled : d.OwnersSettled (ops.length + n)) (hn : ops.length + n < generations) :
    (run d ops).OwnersSettled n :=
  hsettled.run hd hlegal h.ownersLive hn

end LiveMarkup.Document
