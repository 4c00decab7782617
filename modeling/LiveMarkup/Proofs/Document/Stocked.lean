import LiveMarkup.Proofs.Document.Instances
import LiveMarkup.Proofs.Document.Retained

/-!
# Instances are made aside

New instances of a marker are made aside, as those children of a fragment that have no owner.  What is
shown in the fragment adds children with owners of their own, and takes away only such (`Stocked`).
The content of such fragments may be put together (`Stocked.appendFragment`), and when it goes after a
marker, the children without an owner become the instances of that marker, in order
(`Stocked.looks_insertOwned`).
-/

namespace LiveMarkup.Document

open Relation

variable {d d' : Document} {x c m p q u w F T : NodeId} {ls ls' : List NodeData} {S : Set NodeId}

/-! ## Lists of children -/

theorem Pruned.children_eq (h : Pruned S d d') (hp : d.Live p) (hpS : p ∉ S)
    (hS : ∀ c ∈ d.children p, c ∉ S) : d'.children p = d.children p := by
  obtain ⟨s, hs⟩ := hp
  rw [((h.holds p _).mpr ⟨hpS, s, hs, rfl⟩).children_eq, hs.children_eq]
  exact List.filter_eq_self.mpr fun c hc => by simpa using hS c (hs.children_eq ▸ hc)

/-- A node that does not stand at or below another one keeps its children when only what stands below
that one changes. -/
theorem Confined.children_eq (h : Confined u d d') (hd : d.WellFormed) (hp : d.Live p)
    (hpu : ¬ ReflTransGen d.Under p u) : d'.children p = d.children p := by
  have hA := hd.closed_not_below u
  have hpA : p ∈ {x | d.Live x ∧ ¬ TransGen d.Under x u} := ⟨hp, fun h => hpu h.to_reflTransGen⟩
  refine h.keeps.children_eq hA hd h.wellFormed hpA (fun c hc => ⟨hc.live, fun hcu => hpu ?_⟩)
    fun c hc => (h.reached c hc.live).resolve_left fun hcu => hpu ?_
  · obtain ⟨q, hq, hqu⟩ := TransGen.head'_iff.mp hcu
    rwa [hc.unique hq]
  · obtain ⟨q, hq, hqu⟩ := TransGen.head'_iff.mp hcu
    obtain rfl := hc.unique hq
    rcases reflTransGen_iff_eq_or_transGen.mp hqu with rfl | hqu
    · exact .refl
    · exact ((h.keeps.transGen_iff hA hpA).mp hqu).to_reflTransGen

/-! ## New content -/

theorem Fresh.children_eq {data : NodeData} (h : Fresh c data d d') (hd : d.WellFormed) (hp : d.Live p) :
    d'.children p = d.children p := by
  refine h.grows.keeps.children_eq hd.closed_live hd h.grows.wellFormed hp (fun b hb => hb.live) ?_
  rintro b ⟨t, ht, hparent⟩
  rcases h.old b t ht with rfl | hold
  · rw [ht.unique h.holds] at hparent
    cases hparent
  · exact hold.live

/-- Trees are grafted onto a node as new children after those that are there, in order. -/
theorem WellFormed.children_graftAll : ∀ (ts : List Tree) {d : Document} {p : NodeId}, d.WellFormed →
    d.Live p → ∃ cs, (d.graftAll p ts).children p = d.children p ++ cs ∧ (∀ c ∈ cs, ¬ d.Live c) ∧
      (d.graftAll p ts).looks cs = ts.map fun t => t.data.look
  | [], d, p, _, _ => ⟨[], by rw [Document.graftAll, List.append_nil], by simp, rfl⟩
  | .node data ts :: rest, d, p, hd, hp => by
    rw [Document.graftAll, graft]
    dsimp only
    have hfresh := hd.create data
    have hd0 := hfresh.grows.wellFormed
    have hp0 := hfresh.grows.keeps.live hp hp
    have hcp : (d.create data).1 ≠ p := fun h => hfresh.not_live (h ▸ hp)
    obtain ⟨happend, hunder⟩ := hfresh.confined_append hd hp
    obtain ⟨hgrows, -⟩ := hfresh.append hd hp.issued
    have hlist := hd0.children_appendChild ⟨_, hfresh.holds⟩ hp0 hcp
    have hdata : (((d.create data).2.appendChild p (d.create data).1).data (d.create data).1) = data := by
      obtain ⟨t, ht, -⟩ := hunder
      obtain ⟨s, hs, heq, -⟩ := retains_appendChild _ p _ _ t ht
      rw [ht.data_eq, ← heq, hs.unique hfresh.holds]
    have hnotin : ∀ b ∈ d.children p, b ≠ (d.create data).1 := fun b hb heq =>
      hfresh.not_live (heq ▸ (hd.mem_children.mp hb).live)
    rw [hfresh.children_eq hd hp,
      List.filter_eq_self.mpr fun b hb => decide_eq_true (hnotin b hb)] at hlist
    generalize (d.create data).2.appendChild p (d.create data).1 = d1 at *
    generalize (d.create data).1 = c at *
    -- what goes below the new node leaves the list that it stands in alone
    have hinner := WellFormed.confined_graftAll ts happend.wellFormed hunder.live
    have hgrown := WellFormed.graftAll ts happend.wellFormed hunder.live.issued
    have hp1 := hgrows.keeps.live hp hp
    have hp2 := hgrown.keeps.live hp1 hp1
    have hlist2 := hinner.children_eq happend.wellFormed hp1 (happend.wellFormed.not_below hunder)
    obtain ⟨cs, hcs, hnew, hlooks⟩ := WellFormed.children_graftAll rest hinner.wellFormed hp2
    have hc2 := hgrown.keeps.live hunder.live hunder.live
    have hrest := WellFormed.graftAll rest hinner.wellFormed hp2.issued
    refine ⟨c :: cs, by rw [hcs, hlist2, hlist, List.append_assoc, List.singleton_append], ?_, ?_⟩
    · intro b hb hlive
      rcases List.mem_cons.mp hb with rfl | hb
      · exact hfresh.not_live hlive
      · have h1 := hgrows.keeps.live hlive hlive
        exact hnew b hb (hgrown.keeps.live h1 h1)
    · have hkept := hrest.keeps.data_eq hinner.wellFormed.closed_live hc2
      rw [hgrown.keeps.data_eq happend.wellFormed.closed_live hunder.live, hdata] at hkept
      simp only [looks, List.map_cons] at hlooks ⊢
      rw [hkept, hlooks]
      rfl

/-- The topmost nodes of the document that a markup text describes, attributes and properties of
elements apart. -/
def topLooks (html : List Char) : List NodeData :=
  (parse html).looks ((parse html).children root)

theorem topLooks_eq (html : List Char) :
    topLooks html = (Tree.parse html).map fun t => t.data.look := by
  obtain ⟨s, hs, -⟩ := wellFormed_empty.rooted
  obtain ⟨cs, hcs, -, hlooks⟩ := wellFormed_empty.children_graftAll (Tree.parse html) hs.live
  have hempty : empty.children root = [] := rfl
  rw [hempty, List.nil_append] at hcs
  rw [topLooks, parse, parseInto, hcs, hlooks]

theorem WellFormed.looks_createFragment (hd : d.WellFormed) (html : List Char) :
    (d.createFragment html).2.looks ((d.createFragment html).2.ownerless (d.createFragment html).1) =
      topLooks html := by
  have hfresh := hd.create .fragment
  have hd0 := hfresh.grows.wellFormed
  have hF : (d.create .fragment).2.Live (d.create .fragment).1 := ⟨_, hfresh.holds⟩
  obtain ⟨cs, hcs, hnew, hlooks⟩ := hd0.children_graftAll (Tree.parse html) hF
  have hnone : ∀ c ∈ cs, ((d.create .fragment).2.graftAll (d.create .fragment).1
      (Tree.parse html)).owner? c = none := fun c hc =>
    (hd0.graftAll _ hF.issued).wellFormed.owner?_eq_none fun w hw => by
      obtain ⟨s, hs, -⟩ := (hd0.owns_graftAll _ hF).mp hw
      exact hnew c hc hs.live
  rw [hfresh.holds.children_eq, List.nil_append] at hcs
  rw [topLooks_eq, ← hlooks]
  unfold Document.createFragment parseInto ownerless
  simp only [hcs]
  rw [List.filter_eq_self.mpr fun c hc => decide_eq_true (hnone c hc)]

/-! ## Content made aside -/

namespace Aside

/-- What was there before keeps its children. -/
theorem children_eq (h : Aside F d d') (hd : d.WellFormed) (hp : d.Live p) :
    d'.children p = d.children p := by
  refine h.keeps.children_eq hd.closed_live hd h.wellFormed hp (fun c hc => hc.live) fun c hc =>
    (h.reached c hc.live).resolve_right fun hcF => ?_
  rcases hcF.cases_head with rfl | ⟨q, hq, hqF⟩
  · exact h.not_under hc
  · obtain rfl := hc.unique hq
    rcases reflTransGen_iff_eq_or_transGen.mp hqF with rfl | hqF
    · exact h.new hp
    · exact h.not_below hd hp hqF

/-- The children of a fragment are new. -/
theorem not_live_of_mem_children (h : Aside F d d') (hd : d.WellFormed) (hc : c ∈ d'.children F) :
    ¬ d.Live c := fun hlive => h.not_below hd hlive (.single (h.wellFormed.mem_children.mp hc))

/-- The siblings of what was there before were there before. -/
theorem live_of_mem_followingSiblings (h : Aside F d d') (hd : d.WellFormed) (hm : d.Live m)
    (hx : x ∈ d'.followingSiblings m) : d.Live x := by
  obtain ⟨-, p, hmp, hxp⟩ := h.wellFormed.mem_followingSiblings hx
  have hp := hd.closed_live.parent hm ((h.keeps.under_iff hd.closed_live hm).mp hmp)
  have hmem := h.wellFormed.mem_children.mpr hxp
  rw [h.children_eq hd hp] at hmem
  exact (hd.mem_children.mp hmem).live

/-- What goes to the end of a node's children keeps its order and its owners, and other nodes keep their
children. -/
theorem appended (h : Aside F d d') (hd : d.WellFormed) (hp : d.Live p) :
    (d'.appendFragment p F).children p = d.children p ++ d'.children F ∧
      (∀ q, q ≠ p → (d'.appendFragment p F).Live q →
        (d'.appendFragment p F).children q = d'.children q) ∧
      ∀ x w, (d'.appendFragment p F).Owns w x ↔ x ≠ F ∧ d'.Owns w x := by
  have hp' := h.keeps.live hp hp
  have hplace := h.placeable hd hp
  have hsame := h.children_eq hd hp
  have hFp : F ≠ p := fun heq => h.new (heq ▸ hp)
  have hnot : ∀ c ∈ d'.children F, c ∉ d'.children p := fun c hc hmem =>
    hFp ((h.wellFormed.mem_children.mp hc).unique (h.wellFormed.mem_children.mp hmem))
  obtain ⟨hs, howns⟩ := h.wellFormed.spliced_appendAll (h.wellFormed.nodup_children F) hp' hplace rfl
    hnot
  have hmoves := h.wellFormed.appendAll hp'.issued hplace
  have hretains := Retains.foldl (fun d c => retains_appendChild d p c) (d'.children F) d'
  have hF := hmoves.live_of_children h.wellFormed h.live
  have hdata : ((d'.children F).foldl (fun d c => d.appendChild p c) d').data F = .fragment := by
    obtain ⟨t, ht⟩ := id hF
    obtain ⟨s, hs, heq, -⟩ := hretains F t ht
    obtain ⟨s', hs', hfragment, -⟩ := h.top
    rw [ht.data_eq, ← heq, hs.unique hs', hfragment]
  have hempty : ((d'.children F).foldl (fun d c => d.appendChild p c) d').children F = [] := by
    rw [hs.elsewhere F hFp]
    simp
  have hroot : F ≠ root := fun heq => by
    obtain ⟨s, hs, -⟩ := hd.rooted
    exact h.new (heq ▸ hs.live)
  have hd1 := hmoves.steady.wellFormed
  have hpruned := hd1.pruned_releaseFragment hF hroot hdata hempty
  have htop := hs.not_under h.wellFormed hd1 (List.append_nil _).symm fun _ => h.not_under
  have hchildren : ∀ {q}, ((d'.children F).foldl (fun d c => d.appendChild p c) d').Live q → q ≠ F →
      (d'.appendFragment p F).children q =
        ((d'.children F).foldl (fun d c => d.appendChild p c) d').children q := fun {q} hq hqF => by
    refine hpruned.children_eq hq hqF ?_
    rintro c hc rfl
    exact htop q (hd1.mem_children.mp hc)
  refine ⟨?_, fun q hqp hq => ?_, fun x w => ?_⟩
  · have hlive := (hmoves.keeps {p} fun c hc => (hplace c hc).2.ne).live rfl hp'
    rw [hchildren hlive (Ne.symm hFp), hs.here, hsame, List.append_nil]
  · obtain ⟨t, ht⟩ := hq
    obtain ⟨hqF, s, hs', -⟩ := (hpruned.holds q t).mp ht
    rw [hchildren hs'.live hqF, hs.elsewhere q hqp]
    refine List.filter_eq_self.mpr fun c hc => decide_eq_true fun hcF => hqF ?_
    exact (h.wellFormed.mem_children.mp hc).unique (h.wellFormed.mem_children.mp hcF)
  · rw [Document.appendFragment, hpruned.owns_iff, howns, Set.mem_singleton_iff]

/-- What goes after a marker. -/
theorem inserted (h : Aside F d d') (hd : d.WellFormed) (hm : d.Under m p) :
    ∃ L, d'.children p = L ++ m :: d'.followingSiblings m ∧ ¬ ReflTransGen d'.Under m F ∧
      Inserted m F p L (d'.followingSiblings m) d' (d'.insertOwned m F).2 := by
  have hm' := (h.keeps.under_iff hd.closed_live hm.live).mpr hm
  obtain ⟨L, hL⟩ := h.wellFormed.followingSiblings_eq hm'
  obtain ⟨s, hs, hdata, -⟩ := h.top
  have hroot : F ≠ root := fun heq => by
    obtain ⟨s, hs, -⟩ := hd.rooted
    exact h.new (heq ▸ hs.live)
  have hout : ¬ ReflTransGen d'.Under m F := fun hmF => by
    rcases reflTransGen_iff_eq_or_transGen.mp hmF with rfl | hmF
    · exact h.new hm.live
    · exact h.not_below hd hm.live hmF
  exact ⟨L, hL, hout, h.wellFormed.inserted hL hs.live (hs.data_eq.trans hdata) hroot hout⟩

end Aside

/-- The children of a fragment that was made aside look like `ls`, apart from those that are owned; and
what owns something new is new itself. -/
structure Stocked (F : NodeId) (ls : List NodeData) (d d' : Document) : Prop extends Aside F d d' where
  looks_ownerless : d'.looks (d'.ownerless F) = ls
  owner : ∀ x w, d'.Owns w x → ¬ d.Live x → ¬ d.Live w

/-- A new fragment holds what its markup describes. -/
theorem WellFormed.stocked_createFragment (hd : d.WellFormed) (html : List Char) :
    Stocked (d.createFragment html).1 (topLooks html) d (d.createFragment html).2 where
  toAside := hd.aside_createFragment html
  looks_ownerless := hd.looks_createFragment html
  owner x w hw hnew := by
    have hfresh := hd.create .fragment
    obtain ⟨s, hs, -⟩ := hfresh.owns_iff.mp
      ((hfresh.grows.wellFormed.owns_graftAll _ ⟨_, hfresh.holds⟩).mp hw)
    exact absurd hs.live hnew

theorem WellFormed.owns_of_setInnerHtml (hd : d.WellFormed) (hc : d.Live c) {html : List Char}
    (h : (d.setInnerHtml c html).Owns w x) : d.Owns w x := by
  obtain ⟨hsteady, -⟩ := hd.steady_removeChildren hc.issued
  have hpruned := hd.toDownward.removeChildren hc
  have hlive : (d.removeChildren c).Live c := by
    obtain ⟨s, hs⟩ := hc
    refine ⟨_, (hpruned.holds c _).mpr ⟨?_, s, hs, rfl⟩⟩
    rintro ⟨b, hb, hcb⟩
    exact hd.not_below (hd.mem_children.mp hb) (hd.under_of_below hcb)
  exact (hpruned.owns_iff.mp ((hsteady.wellFormed.owns_graftAll _ hlive).mp h)).2

namespace Stocked

section

variable {d1 d2 : Document} (h : Stocked F ls d d1) (hd : d.WellFormed)
include h hd

theorem restyled (hc : Confined F d1 d2) (hr : Restyled d1 d2) : Stocked F ls d d2 where
  toAside := h.toAside.confined hc hd
  looks_ownerless := by rw [hr.ownerless_eq, hr.looks_eq, h.looks_ownerless]
  owner x w hw := h.owner x w ((hr.owns_iff h.wellFormed hc.wellFormed).mp hw)

/-- An element below the fragment gets new content. -/
theorem setInnerHtml (hc : TransGen d1.Under c F) (html : List Char) :
    Stocked F ls d (d1.setInnerHtml c html) := by
  have hconf := h.wellFormed.confined_setInnerHtml (live_of_below hc) html
  have haside := h.toAside.confined (hconf.widen h.wellFormed hc) hd
  have hFc : ∀ {d'}, Aside F d d' → ¬ TransGen d'.Under F c := fun ha hFc => by
    obtain ⟨q, hq, -⟩ := TransGen.head'_iff.mp hFc
    exact ha.not_under hq
  have hne : F ≠ c := fun heq => h.wellFormed.acyclic F (heq ▸ hc)
  -- no child of the fragment stands below the element
  have hout : ∀ {d' : Document} {y}, Aside F d d' → d'.Under y F → ¬ TransGen d'.Under y c :=
      fun ha hy hyc => by
    obtain ⟨q, hq, hqc⟩ := TransGen.head'_iff.mp hyc
    obtain rfl := hy.unique hq
    exact (reflTransGen_iff_eq_or_transGen.mp hqc).elim (fun heq => hne heq.symm) (hFc ha)
  have hold : ∀ y ∈ d1.children F, d1.Live y ∧ ¬ TransGen d1.Under y c := fun y hy =>
    have hyF := h.wellFormed.mem_children.mp hy
    ⟨hyF.live, hout h.toAside hyF⟩
  have hnew : ∀ y ∈ (d1.setInnerHtml c html).children F, d1.Live y ∧ ¬ TransGen d1.Under y c :=
    fun y hy =>
      have hyF := hconf.wellFormed.mem_children.mp hy
      (hconf.reached y hyF.live).resolve_left (hout haside hyF)
  obtain ⟨hlist, hlooks⟩ := hconf.keeps.ownerless_eq (h.wellFormed.closed_not_below c)
    ⟨h.toAside.live, hFc h.toAside⟩ (fun y hy _ => hold y hy) fun y hy _ => hnew y hy
  refine ⟨haside, by rw [hlist, hlooks, h.looks_ownerless], fun x w hw => ?_⟩
  exact h.owner x w (h.wellFormed.owns_of_setInnerHtml (live_of_below hc) hw)

/-- What a marker in the fragment owns is replaced. -/
theorem refill (hm : TransGen d1.Under m F) (hc : Confined F d1 d2)
    (hf : Filled m (d1.clearOwned m).2 d2) : Stocked F ls d d2 := by
  have hclear := h.wellFormed.confined_clearOwned hm
  have hF := hclear.keeps.live ⟨h.toAside.live, h.wellFormed.acyclic F⟩ h.toAside.live
  obtain ⟨hlist, hlooks⟩ := h.wellFormed.ownerless_clearOwned hF
  obtain ⟨hlist', hlooks'⟩ := hf.ownerless_eq hclear.wellFormed hF
  obtain ⟨-, hpruned⟩ := h.wellFormed.clearOwned_spec m
  refine ⟨h.toAside.confined hc hd, ?_, fun x w hw hnew hold => ?_⟩
  · rw [hlist', hlooks', hlist, hlooks, h.looks_ownerless]
  · have hold1 := hclear.keeps.live
      ⟨h.keeps.live hold hold, h.toAside.not_below hd hold⟩ (h.keeps.live hold hold)
    by_cases hx : (d1.clearOwned m).2.Live x
    · rw [hf.keeps.owns_iff hclear.wellFormed.closed_live hx, hpruned.owns_iff] at hw
      exact h.owner x w hw.2 hnew hold
    · rcases hf.owner x w hw hx with rfl | hw
      · exact h.toAside.not_below hd hold hm
      · exact hw hold1

/-- The content of another fragment goes to the end. -/
theorem appendFragment (h' : Stocked T ls' d1 d2) :
    Stocked F (ls ++ ls') d (d2.appendFragment F T) := by
  have hF := h.toAside.live
  have hconf := h'.toAside.confined_appendFragment h.wellFormed hF
  obtain ⟨hlist, -, howns⟩ := h'.toAside.appended h.wellFormed hF
  have hF2 := h'.keeps.live hF hF
  have hsame := h'.toAside.children_eq h.wellFormed hF
  have howner : ∀ {c q}, c ∈ d2.children q →
      (d2.appendFragment F T).owner? c = d2.owner? c := fun {c q} hc => by
    refine Option.ext fun w => ?_
    have hcT : c ≠ T := fun heq => h'.toAside.not_under (heq ▸ h'.wellFormed.mem_children.mp hc)
    rw [hconf.wellFormed.owner?_eq_some_iff, h'.wellFormed.owner?_eq_some_iff, howns]
    exact and_iff_right hcT
  have hdata : ∀ {c}, (d2.appendFragment F T).Live c →
      (d2.appendFragment F T).data c = d2.data c := fun hc => by
    obtain ⟨t, ht⟩ := hc
    obtain ⟨s, hs, heq, -⟩ := retains_appendFragment d2 F T _ t ht
    rw [ht.data_eq, hs.data_eq, heq]
  have hownerless : (d2.appendFragment F T).ownerless F = d1.ownerless F ++ d2.ownerless T := by
    obtain ⟨hold, -⟩ := h'.keeps.ownerless_eq h.wellFormed.closed_live hF
      (fun y hy _ => (h.wellFormed.mem_children.mp hy).live) fun y hy _ =>
        (h.wellFormed.mem_children.mp (hsame ▸ hy)).live
    rw [← hold, ownerless, ownerless, ownerless, hlist, ← hsame, List.filter_append]
    congr 1 <;> exact List.filter_congr fun c hc => by rw [howner hc]
  refine ⟨h.toAside.confined hconf hd, ?_, fun x w hw hnew hold => ?_⟩
  · have hkept : ∀ {c}, c ∈ d1.ownerless F ++ d2.ownerless T →
        (d2.appendFragment F T).data c = d2.data c := fun {c} hc => by
      rw [← hownerless] at hc
      exact hdata (hconf.wellFormed.mem_children.mp (List.mem_of_mem_filter hc)).live
    have hlooks : d2.looks (d1.ownerless F) = d1.looks (d1.ownerless F) :=
      h'.keeps.looks_eq h.wellFormed.closed_live fun c hc =>
        (h.wellFormed.mem_children.mp (List.mem_of_mem_filter hc)).live
    rw [hownerless, ← h.looks_ownerless, ← h'.looks_ownerless, ← hlooks, ← looks_append]
    exact List.map_congr_left fun c hc => by rw [hkept hc]
  · obtain ⟨-, hw⟩ := (howns x w).mp hw
    by_cases hx : d1.Live x
    · exact h.owner x w ((h'.keeps.owns_iff h.wellFormed.closed_live hx).mp hw) hnew hold
    · exact h'.owner x w hw hx (h.keeps.live hold hold)

end

section

variable (h : Stocked F ls d d') (hd : d.WellFormed) (hm : d.Under m p)
include h hd hm

/-- The content goes after a marker. -/
theorem filled : Filled m d (d'.insertOwned m F).2 := by
  obtain ⟨L, hL, hout, hins⟩ := h.toAside.inserted hd hm
  have howner : ∀ {x w}, (d'.insertOwned m F).2.Owns w x → x ≠ F ∧ (if x ∈ d'.children F then
      (d'.owner? x).or (some m) else d'.owner? x) = some w := fun {x w} hw => by
    obtain ⟨t, ht, -⟩ := id hw
    obtain ⟨hx, s, hs, -⟩ := (hins.holds x t).mp ht
    rw [← hins.owner?_eq hs.live hx]
    exact ⟨hx, hins.wellFormed.owner?_eq_some_iff.mpr hw⟩
  refine ⟨hins.wellFormed, ?_, fun x q hx hq hnew => ?_, fun x w hw hnew => ?_⟩
  · exact h.keeps.trans ((h.toAside.emptied_insertOwned hd hm).keeps _
      (h.keeps.closed hd.closed_live) h.new)
  · obtain ⟨hxF, ⟨hmem, -⟩ | ⟨-, hxq⟩⟩ := (hins.under_iff h.wellFormed).mp hx
    · have hlive := (h.wellFormed.mem_children.mp hmem).live
      have heq := hins.owner?_eq hlive hxF
      rw [if_pos hmem] at heq
      rcases hw : d'.owner? x with _ | w <;> rw [hw] at heq
      · exact ⟨m, hins.wellFormed.owner?_eq_some_iff.mp heq⟩
      · exact ⟨w, hins.wellFormed.owner?_eq_some_iff.mp heq⟩
    · have hmem := h.wellFormed.mem_children.mpr hxq
      rw [h.toAside.children_eq hd hq] at hmem
      exact absurd (hd.mem_children.mp hmem).live hnew
  · obtain ⟨-, hw⟩ := howner hw
    rcases hx : d'.owner? x with _ | w' <;> rw [hx] at hw
    · split_ifs at hw
      exact .inl (Option.some.inj hw).symm
    · have hw' : w' = w := by
        split_ifs at hw <;> exact Option.some.inj hw
      exact .inr (h.owner x w (hw' ▸ h.wellFormed.owner?_eq_some_iff.mp hx) hnew)

/-- The children without an owner become the instances of a marker that had none. -/
theorem looks_insertOwned (hnone : d.instances m = []) :
    (d'.insertOwned m F).2.looks ((d'.insertOwned m F).2.instances m) = ls := by
  obtain ⟨L, hL, hout, hins⟩ := h.toAside.inserted hd hm
  have hafter := hins.wellFormed.followingSiblings_of_children
    (hins.children_around h.wellFormed hL hout)
  have hlive : ∀ x ∈ d'.followingSiblings m, d.Live x := fun x =>
    h.toAside.live_of_mem_followingSiblings hd hm.live
  have hold : d'.instances m = [] := by
    rw [← hnone]
    refine (h.keeps.instances_eq hd.closed_live hd h.wellFormed hm.live (fun x hx _ => ?_)
      fun x hx _ => hlive x hx).1
    obtain ⟨-, q, -, hxq⟩ := hd.mem_followingSiblings hx
    exact hxq.live
  have hinside : (d'.children F).filter (fun c => (d'.insertOwned m F).2.owner? c = some m) =
      d'.ownerless F := by
    refine List.filter_congr fun c hc => ?_
    have hcF := h.wellFormed.mem_children.mp hc
    have hne : c ≠ F := fun heq => h.toAside.not_under (heq ▸ hcF)
    rw [hins.owner?_eq hcF.live hne, if_pos hc]
    rcases hw : d'.owner? c with _ | w
    · simp
    · have hwm : w ≠ m := by
        rintro rfl
        exact h.owner c w (h.wellFormed.owner?_eq_some_iff.mp hw)
          (h.toAside.not_live_of_mem_children hd hc) hm.live
      simpa using hwm
  have hbeside : ((d'.followingSiblings m).filter (· ≠ F)).filter
      (fun c => (d'.insertOwned m F).2.owner? c = some m) = [] := by
    refine List.filter_eq_nil_iff.mpr fun x hx hw => ?_
    obtain ⟨hx, hxF⟩ := List.mem_filter.mp hx
    have hxold := hlive x hx
    have hnot : x ∉ d'.children F := fun hmem => h.toAside.not_live_of_mem_children hd hmem hxold
    have howner := of_decide_eq_true hw
    rw [hins.owner?_eq (h.keeps.live hxold hxold) (of_decide_eq_true hxF), if_neg hnot] at howner
    have hmem : x ∈ d'.instances m := List.mem_filter.mpr ⟨hx, decide_eq_true howner⟩
    rw [hold] at hmem
    cases hmem
  rw [instances, hafter, List.filter_append, hinside, hbeside, List.append_nil, ← h.looks_ownerless]
  refine List.map_congr_left fun c hc => ?_
  have hcF := h.wellFormed.mem_children.mp (List.mem_of_mem_filter hc)
  have hne : c ≠ F := fun heq => h.toAside.not_under (heq ▸ hcF)
  obtain ⟨s, hs, -⟩ := hcF
  rw [((hins.holds c _).mpr ⟨hne, s, hs, rfl⟩).data_eq, hs.data_eq]
  rfl

end

end Stocked

end LiveMarkup.Document
