import LiveMarkup.Proofs.Document.Retained
import LiveMarkup.Proofs.Page.Handlers
import LiveMarkup.Proofs.Page.Spared

/-!
# Documents whose elements are vetted

All elements of a document may have a property, apart from those below a text binding, which come
and go with the text (`Document.Vetted`).  To remove nodes keeps that, to move the children of a
fragment does (`Vetted.emptied`), and to show a text does (`Vetted.setInnerHtml`); new content keeps
it once its elements have been changed to have the property (`WellFormed.vetted_updateElements`).
-/

namespace LiveMarkup.Document

open Relation

variable {d d' : Document} {x c F p : NodeId} {P : Element → Prop} {A S : Set NodeId}
  {f : Element → Element}

/-- A node stands below an element with a text binding. -/
def Shadowed (d : Document) (x : NodeId) : Prop :=
  ∃ n, TransGen d.Under x n ∧ (d.data n).boundText?.isSome = true

/-- Every element has a property, apart from those below a text binding. -/
def Vetted (P : Element → Prop) (d : Document) : Prop :=
  ∀ x e, d.Live x → d.data x = .element e → P e ∨ d.Shadowed x

/-! ## Nodes that are kept -/

theorem Shadowed.keeps (h : d.Shadowed x) (hk : Keeps A d d') (hA : Closed A d) (hx : x ∈ A) :
    d'.Shadowed x := by
  obtain ⟨n, hxn, hn⟩ := h
  refine ⟨n, (hk.transGen_iff hA hx).mpr hxn, ?_⟩
  rwa [hk.data_eq hA (hA.above hx hxn.to_reflTransGen)]

/-- The nodes in a set are kept, and the others have been vetted. -/
theorem Vetted.keeps (h : d.Vetted P) (hk : Keeps A d d') (hA : Closed A d)
    (hnew : ∀ x e, d'.Live x → x ∉ A → d'.data x = .element e → P e ∨ d'.Shadowed x) :
    d'.Vetted P := fun x e hx he => by
  by_cases hxA : x ∈ A
  · rw [hk.data_eq hA hxA] at he
    exact (h x e (hA.live x hxA) he).imp_right fun hs => hs.keeps hk hA hxA
  · exact hnew x e hx hxA he

/-- Nothing is new where nodes were removed. -/
theorem Vetted.pruned (h : d.Vetted P) (hd : d.WellFormed) (hd' : d'.WellFormed)
    (hS : Pruned S d d') : d'.Vetted P := by
  refine h.keeps (A := {x | d.Live x ∧ x ∉ S}) (hS.keeps fun _ hx => hx.2) (hS.closed hd hd') ?_
  rintro x e ⟨t, ht⟩ hx -
  obtain ⟨hxS, s, hs, -⟩ := (hS.holds x t).mp ht
  exact absurd ⟨hs.live, hxS⟩ hx

/-- What a marker owns is cleared. -/
theorem Vetted.clearOwned (h : d.Vetted P) (hd : d.WellFormed) (hc : d.Under c p) :
    (d.clearOwned c).2.Vetted P := by
  obtain ⟨S, hS, -⟩ := hd.pruned_clearOwned hc
  exact h.pruned hd (hd.clearOwned c).1.wellFormed hS

/-- What stands below a text binding need not be vetted. -/
theorem Vetted.setInnerHtml (h : d.Vetted P) (hd : d.WellFormed) (hc : d.Live c)
    (hbound : (d.data c).boundText?.isSome = true) (html : List Char) :
    (d.setInnerHtml c html).Vetted P := by
  have hconf := hd.confined_setInnerHtml hc html
  have hclosed := hd.closed_not_below c
  refine h.keeps hconf.keeps hclosed fun x e hx hnot _ => .inr ⟨c, ?_, ?_⟩
  · exact (hconf.reached x hx).resolve_right hnot
  · rwa [hconf.keeps.data_eq hclosed ⟨hc, hd.acyclic c⟩]

/-! ## Nodes that are moved -/

/-- The children of a fragment go elsewhere, and nothing comes out of the shadow of a text. -/
theorem Vetted.emptied (h : d.Vetted P) (hd : d.WellFormed) {s : Slot} (hF : d.Holds F s)
    (hdata : s.data = .fragment) (hparent : s.parent = none) (he : Emptied F p d d')
    {new : Set NodeId} (hr : Retains new d d') : d'.Vetted P := by
  have htop : ∀ q, ¬ d.Under F q := fun q ⟨t, ht, hq⟩ => by
    rw [ht.unique hF, hparent] at hq
    cases hq
  have hsame : ∀ {y}, d'.Live y → d'.data y = d.data y := fun {y} ⟨t, ht⟩ => by
    obtain ⟨s, hs, heq, -⟩ := hr y t ht
    rw [ht.data_eq, hs.data_eq, heq]
  have hstep : ∀ {y q}, d.Under y q → q ≠ F → d'.Under y q := fun {y q} hy hq =>
    (he.under_iff y q).mpr (.inr ⟨fun hyF => hq (hy.unique hyF), hy⟩)
  intro x e hx hxe
  obtain ⟨hxlive, -⟩ := (he.live_iff x).mp hx
  rw [hsame hx] at hxe
  refine (h x e hxlive hxe).imp_right ?_
  rintro ⟨n, hxn, hn⟩
  have hnF : n ≠ F := by
    rintro rfl
    rw [hF.data_eq, hdata] at hn
    cases hn
  have hnlive : d'.Live n :=
    (he.live_iff n).mpr ⟨hd.closed_live.above hxlive hxn.to_reflTransGen, hnF⟩
  refine ⟨n, ?_, by rwa [hsame hnlive]⟩
  clear hx hxe hxlive
  induction hxn using TransGen.head_induction_on with
  | single hy => exact .single (hstep hy hnF)
  | head hy hyn ih =>
    obtain ⟨q, hyq, -⟩ := TransGen.head'_iff.mp hyn
    exact .head (hstep hy fun heq => htop q (heq ▸ hyq)) ih

theorem Vetted.insertOwned {d0 : Document} {m : NodeId} (h : d.Vetted P) (hd0 : d0.WellFormed)
    (ha : Aside F d0 d) (hm : d0.Under m p) : (d.insertOwned m F).2.Vetted P := by
  obtain ⟨s, hs, hdata, hparent⟩ := ha.top
  exact h.emptied ha.wellFormed hs hdata hparent (ha.emptied_insertOwned hd0 hm)
    (retains_insertOwned d m F)

theorem Vetted.appendFragment {d0 : Document} (h : d.Vetted P) (hd0 : d0.WellFormed)
    (ha : Aside F d0 d) (hp : d0.Live p) : (d.appendFragment p F).Vetted P := by
  obtain ⟨s, hs, hdata, hparent⟩ := ha.top
  exact h.emptied ha.wellFormed hs hdata hparent (ha.emptied_appendFragment hd0 hp)
    (retains_appendFragment d p F)

/-! ## Elements that are changed -/

theorem isSome_boundText?_iff {data : NodeData} : data.boundText?.isSome = true ↔
    ∃ e, data = .element e ∧ e.hasAttribute (String.ofList textBinding) = true := by
  cases data <;> simp [NodeData.boundText?, NodeData.element?, Element.hasAttribute]

/-- Some elements are changed, and then all have been vetted. -/
theorem WellFormed.vetted_updateElements (hd : d.WellFormed) {xs : List NodeId} (hnd : xs.Nodup)
    (hlive : ∀ x ∈ xs, d.Live x)
    (hbound : ∀ e, e.hasAttribute (String.ofList textBinding) = true →
      (f e).hasAttribute (String.ofList textBinding) = true)
    (h : ∀ x e, d.Live x → d.data x = .element e →
      (x ∈ xs → P (f e)) ∧ (x ∉ xs → P e) ∨ d.Shadowed x) :
    (xs.foldl (fun d n => d.updateElement n f) d).Vetted P := by
  have hr := hd.rewrites_updateElements f xs hnd hlive
  have hunder : ∀ {x p}, _ := fun {x p} => hr.under_iff (x := x) (p := p) fun x s _ => by split <;> rfl
  have hdata : ∀ {x s}, d.Holds x s → (xs.foldl (fun d n => d.updateElement n f) d).data x =
      if x ∈ xs then s.data.mapElement f else s.data := fun {x s} hs => by
    rw [(hr.holds_of hs).data_eq]
    split <;> rfl
  have hshadow : ∀ {x}, d.Shadowed x → (xs.foldl (fun d n => d.updateElement n f) d).Shadowed x := by
    rintro x ⟨n, hxn, hn⟩
    refine ⟨n, TransGen.mono (fun _ _ => hunder.mpr) _ _ hxn, ?_⟩
    obtain ⟨s, hs⟩ := hd.closed_live.above (live_of_below hxn) hxn.to_reflTransGen
    rw [hs.data_eq] at hn
    rw [hdata hs]
    split
    · obtain ⟨e, he, hhas⟩ := isSome_boundText?_iff.mp hn
      exact isSome_boundText?_iff.mpr ⟨f e, by rw [he]; rfl, hbound e hhas⟩
    · exact hn
  rintro x e ⟨t, ht⟩ he
  obtain ⟨s, hs, -⟩ := (hr.holds x t).mp ht
  rw [hdata hs] at he
  by_cases hx : x ∈ xs
  · rw [if_pos hx] at he
    rcases hsd : s.data with e' | _ | _ | _ | _ | _ <;> rw [hsd] at he <;> try cases he
    exact (h x _ hs.live (hs.data_eq.trans hsd)).imp (fun h => h.1 hx) hshadow
  · rw [if_neg hx] at he
    exact (h x e hs.live (hs.data_eq.trans he)).imp (fun h => h.2 hx) hshadow

/-- A change that keeps the property of elements and their text bindings. -/
theorem Vetted.updateElement (h : d.Vetted P) (hd : d.WellFormed) (c : NodeId)
    (hf : ∀ e, P e → P (f e))
    (hbound : ∀ e, e.hasAttribute (String.ofList textBinding) = true →
      (f e).hasAttribute (String.ofList textBinding) = true) : (d.updateElement c f).Vetted P := by
  by_cases hc : d.Live c
  · exact hd.vetted_updateElements (List.nodup_singleton c) (by simpa using hc) hbound
      fun x e hx he => (h x e hx he).imp_left fun hP => ⟨fun _ => hf e hP, fun _ => hP⟩
  · rwa [hd.updateElement_of_not_live hc]

/-! ## New nodes -/

/-- The nodes that are grafted are those of the trees. -/
theorem WellFormed.data_graftAll : ∀ (ts : List Tree) {d : Document} {p : NodeId}, d.WellFormed →
    d.Live p → ∀ x, (d.graftAll p ts).Live x →
      d.Live x ∨ (d.graftAll p ts).data x ∈ Tree.dataAll ts
  | [], d, p, _, _ => fun x hx => by
    rw [Document.graftAll] at hx
    exact .inl hx
  | .node data ts :: rest, d, p, hd, hp => by
    rw [Document.graftAll, graft, Tree.dataAll_node]
    dsimp only
    have hfresh := hd.create data
    obtain ⟨happend, hunder⟩ := hfresh.confined_append hd hp
    have hretains := retains_appendChild (d.create data).2 p (d.create data).1
    generalize (d.create data).2.appendChild p (d.create data).1 = d1 at happend hunder hretains ⊢
    have hinner := WellFormed.graftAll ts happend.wellFormed hunder.live.issued
    have hp1 := happend.keeps.live ⟨hp, hd.acyclic p⟩ hp
    have hp2 := hinner.keeps.live hp1 hp1
    have hkept : ∀ {x}, (d1.graftAll (d.create data).1 ts).Live x →
        ((d1.graftAll (d.create data).1 ts).graftAll p rest).data x =
          (d1.graftAll (d.create data).1 ts).data x := fun hx =>
      (WellFormed.graftAll rest hinner.wellFormed hp2.issued).keeps.data_eq
        hinner.wellFormed.closed_live hx
    intro x hx
    rcases WellFormed.data_graftAll rest hinner.wellFormed hp2 x hx with hx2 | hx2
    · rw [hkept hx2]
      rcases WellFormed.data_graftAll ts happend.wellFormed hunder.live x hx2 with hx1 | hx1
      · rw [hinner.keeps.data_eq happend.wellFormed.closed_live hx1]
        obtain ⟨t, ht⟩ := hx1
        obtain ⟨s, hs, hdata, -⟩ := hretains x t ht
        rcases hfresh.old x s hs with rfl | hold
        · rw [hs.unique hfresh.holds] at hdata
          rw [ht.data_eq, ← hdata]
          exact .inr List.mem_cons_self
        · exact .inl hold.live
      · exact .inr (List.mem_cons_of_mem data (List.mem_append_left _ hx1))
    · exact .inr (List.mem_cons_of_mem data (List.mem_append_right _ hx2))

/-- The nodes of a new fragment are those of its markup. -/
theorem WellFormed.data_createFragment (hd : d.WellFormed) (html : List Char)
    (hx : (d.createFragment html).2.Live x) : d.Live x ∨ x = (d.createFragment html).1 ∨
      (d.createFragment html).2.data x ∈ Tree.dataAll (Tree.parse html) := by
  have hfresh := hd.create .fragment
  rcases WellFormed.data_graftAll _ hfresh.grows.wellFormed hfresh.holds.live x hx with hold | hnew
  · obtain ⟨s, hs⟩ := hold
    rcases hfresh.old x s hs with rfl | hs
    · exact .inr (.inl rfl)
    · exact .inl hs.live
  · exact .inr (.inr hnew)

/-- Markup without elements brings none that would have to be vetted. -/
theorem Vetted.createFragment (h : d.Vetted P) (hd : d.WellFormed) {html : List Char}
    (hnone : ∀ e, .element e ∉ Tree.dataAll (Tree.parse html)) :
    (d.createFragment html).2.Vetted P := by
  have ha := hd.aside_createFragment html
  refine h.keeps ha.keeps hd.closed_live fun x e hx hold he => ?_
  rcases (hd.data_createFragment html hx).resolve_left hold with rfl | hnew
  · obtain ⟨s, hs, hdata, -⟩ := ha.top
    rw [hs.data_eq, hdata] at he
    cases he
  · exact absurd (he ▸ hnew) (hnone e)

/-- The elements of a new fragment are vetted if they are once they are changed. -/
theorem Vetted.createFragment_updateElements (h : d.Vetted P) (hd : d.WellFormed) {html : List Char}
    (hbound : ∀ e, e.hasAttribute (String.ofList textBinding) = true →
      (f e).hasAttribute (String.ofList textBinding) = true)
    (hf : ∀ e, .element e ∈ Tree.dataAll (Tree.parse html) → P (f e)) :
    (((d.createFragment html).2.elements (d.createFragment html).1).foldl
      (fun d n => d.updateElement n f) (d.createFragment html).2).Vetted P := by
  have ha := hd.aside_createFragment html
  have hmem : ∀ {x}, _ := fun {x} => ha.wellFormed.mem_elements_iff (x := x) ha.live
  refine ha.wellFormed.vetted_updateElements (ha.wellFormed.nodup_elements ha.live)
    (fun x => ha.wellFormed.live_of_mem_elements ha.live) hbound fun x e hx he => ?_
  by_cases hold : d.Live x
  · rw [ha.keeps.data_eq hd.closed_live hold] at he
    refine (h x e hold he).imp (fun hP => ⟨fun hin => ?_, fun _ => hP⟩) fun hs =>
      hs.keeps ha.keeps hd.closed_live hold
    exact absurd (hmem.mp hin).1 (ha.not_below hd hold)
  · have hfragment : x ≠ (d.createFragment html).1 := by
      rintro rfl
      obtain ⟨s, hs, hdata, -⟩ := ha.top
      rw [hs.data_eq, hdata] at he
      cases he
    have hnew := ((hd.data_createFragment html hx).resolve_left hold).resolve_left hfragment
    have hbelow := (reflTransGen_iff_eq_or_transGen.mp ((ha.reached x hx).resolve_left hold)).resolve_left
      (Ne.symm hfragment)
    refine .inl ⟨fun _ => hf e (he ▸ hnew), fun hout => absurd (hmem.mpr ⟨hbelow, ?_⟩) hout⟩
    rw [element?, he]
    rfl

end LiveMarkup.Document
