import Mathlib
import LiveMarkup.Proofs.Document.Arena

/-!
# Changes below a node

A change is confined to a node if every node that does not stand below it stays what and where it
was, and everything new stands below it (`Confined`).  New content is made aside, below a new
fragment that no node has as a child (`Aside`), and then its nodes go below a node that was there
before, so that this change is a confined one as well (`Aside.confined_insertOwned`,
`Aside.confined_appendFragment`).

The walk downward from a node comes to just the nodes below it (`WellFormed.mem_descendants_iff`),
each once.
-/

namespace LiveMarkup.Document

open Relation

variable {d d' d'' : Document} {x y b c p q u F : NodeId} {cs : List NodeId} {A S : Set NodeId}
  {f : Slot → Slot}

/-! ## Walks downward -/

/-- A walk downward and a walk backward come to the same nodes. -/
theorem descendantsTo_perm (d : Document) : ∀ (n : Nat) (c : NodeId),
    (c :: d.descendantsTo n c).Perm (d.backward n c)
  | 0, c => .refl _
  | n + 1, c => by
    rw [descendantsTo, backward]
    refine .cons c ?_
    have h := List.Perm.flatMap_left (d.children c) fun b _ => descendantsTo_perm d n b
    exact h.trans ((d.children c).reverse_perm.symm.flatMap_right _)

theorem WellFormed.nodup_descendants (hd : d.WellFormed) (hc : d.Live c) :
    (c :: d.descendants c).Nodup :=
  (descendantsTo_perm d _ c).nodup_iff.mpr (hd.nodup_backward hc)

/-- The walk downward from a node comes to all nodes below it. -/
theorem WellFormed.mem_descendants_iff (hd : d.WellFormed) (hc : d.Live c) :
    x ∈ d.descendants c ↔ TransGen d.Under x c := by
  have hmem : x ∈ c :: d.descendants c ↔ ReflTransGen d.Under x c := by
    rw [descendants, (descendantsTo_perm d _ c).mem_iff, hd.mem_backward_iff hc]
    exact ⟨hd.under_of_below, fun h => ReflTransGen.mono (fun _ _ => hd.parent) _ _ h⟩
  rw [reflTransGen_iff_eq_or_transGen, List.mem_cons, eq_comm (a := c)] at hmem
  by_cases hxc : x = c
  · subst hxc
    exact iff_of_false (List.nodup_cons.mp (hd.nodup_descendants hc)).1 (hd.acyclic x)
  · simpa [hxc] using hmem

theorem WellFormed.mem_elements_iff (hd : d.WellFormed) (hc : d.Live c) :
    x ∈ d.elements c ↔ TransGen d.Under x c ∧ (d.element? x).isSome = true := by
  rw [elements, List.mem_filter, hd.mem_descendants_iff hc]

theorem WellFormed.nodup_elements (hd : d.WellFormed) (hc : d.Live c) : (d.elements c).Nodup :=
  (List.nodup_cons.mp (hd.nodup_descendants hc)).2.filter _

theorem WellFormed.live_of_mem_elements (hd : d.WellFormed) (hc : d.Live c)
    (hx : x ∈ d.elements c) : d.Live x :=
  live_of_below ((hd.mem_elements_iff hc).mp hx).1

/-! ## Confined changes -/

/-- Above a node that is kept stand the same nodes as before. -/
theorem Keeps.transGen_iff (h : Keeps A d d') (hA : Closed A d) (hx : x ∈ A) :
    TransGen d'.Under x y ↔ TransGen d.Under x y := by
  constructor
  · intro hxy
    induction hxy with
    | single hxy => exact .single ((h.under_iff hA hx).mp hxy)
    | tail _ hyz ih =>
      exact ih.tail ((h.under_iff hA (hA.above hx ih.to_reflTransGen)).mp hyz)
  · intro hxy
    induction hxy with
    | single hxy => exact .single ((h.under_iff hA hx).mpr hxy)
    | tail hxy hyz ih => exact ih.tail ((h.under_iff hA (hA.above hx hxy.to_reflTransGen)).mpr hyz)

/-- Only what stands below a node has changed, and everything new stands below it. -/
structure Confined (u : NodeId) (d d' : Document) : Prop where
  wellFormed : d'.WellFormed
  keeps : Keeps {x | d.Live x ∧ ¬ TransGen d.Under x u} d d'
  reached : ∀ x, d'.Live x → TransGen d'.Under x u ∨ d.Live x ∧ ¬ TransGen d.Under x u

theorem WellFormed.closed_not_below (hd : d.WellFormed) (u : NodeId) :
    Closed {x | d.Live x ∧ ¬ TransGen d.Under x u} d where
  live _ hx := hx.1
  parent hx hp := ⟨hd.closed_live.parent hx.1 hp, fun h => hx.2 (h.head hp)⟩

namespace Confined

theorem refl (hd : d.WellFormed) (u : NodeId) : Confined u d d :=
  ⟨hd, .refl _ d, fun x hx => (em (TransGen d.Under x u)).imp_right fun h => ⟨hx, h⟩⟩

theorem trans (h : Confined u d d') (h' : Confined u d' d'') (hd : d.WellFormed) :
    Confined u d d'' where
  wellFormed := h'.wellFormed
  keeps := h.keeps.trans (h'.keeps.mono fun _ hx =>
    ⟨h.keeps.live hx hx.1, fun hxu => hx.2 ((h.keeps.transGen_iff (hd.closed_not_below u) hx).mp hxu)⟩)
  reached x hx := (h'.reached x hx).imp_right fun ⟨hx', hnot⟩ => (h.reached x hx').resolve_left hnot

/-- What is confined to a node is confined to the nodes above it. -/
theorem widen (h : Confined c d d') (hd : d.WellFormed) (hc : TransGen d.Under c u) :
    Confined u d d' where
  wellFormed := h.wellFormed
  keeps := h.keeps.mono fun _ hx => ⟨hx.1, fun hxc => hx.2 (hxc.trans hc)⟩
  reached x hx := by
    have hkept : ∀ {y}, d.Live y ∧ ¬ TransGen d.Under y c → TransGen d.Under y u →
        TransGen d'.Under y u :=
      fun hy => (h.keeps.transGen_iff (hd.closed_not_below c) hy).mpr
    have hlive : d.Live c := by
      exact live_of_below hc
    rcases h.reached x hx with hxc | hxc
    · exact .inl (hxc.trans (hkept ⟨hlive, hd.acyclic c⟩ hc))
    · exact (em (TransGen d.Under x u)).imp (hkept hxc) fun hxu => ⟨hxc.1, hxu⟩

/-- A handle that named nothing but nodes below `u` still does. -/
theorem below (h : Confined u d d') (hx : d.Live x → TransGen d.Under x u) (hlive : d'.Live x) :
    TransGen d'.Under x u :=
  (h.reached x hlive).resolve_right fun h => h.2 (hx h.1)

end Confined

/-! ## Writing and removing -/

theorem WellFormed.confined_update (hd : d.WellFormed) (hc : d.Live c → TransGen d.Under c u)
    (hfinds : d.Finds c) (hgen : ∀ s, (f s).generation = s.generation)
    (hparent : ∀ s, (f s).parent = s.parent) (hchildren : ∀ s, (f s).children = s.children) :
    Confined u d (d.update c f) := by
  by_cases hcontains : d.contains c = true
  · have hlive := hfinds hcontains
    have h := rewrites_update hgen hlive
    have hunder : ∀ {x p}, (d.update c f).Under x p ↔ d.Under x p := h.under_iff fun x s _ => by
      split_ifs
      exacts [hparent s, rfl]
    refine ⟨(hd.steady_update hfinds hgen hparent hchildren).wellFormed,
      h.keeps fun x hx s _ => if_neg ?_, fun x hx => ?_⟩
    · rintro rfl
      exact hx.2 (hc hlive)
    · exact (em (TransGen d.Under x u)).imp (TransGen.mono (fun _ _ => hunder.mpr) _ _)
        fun hxu => ⟨h.live_iff.mp hx, hxu⟩
  · unfold Document.update
    rw [if_neg hcontains]
    exact .refl hd u

/-- Where nodes are left out, no other node loses its parent. -/
theorem Pruned.closed (h : Pruned S d d') (hd : d.WellFormed) (hd' : d'.WellFormed) :
    Closed {x | d.Live x ∧ x ∉ S} d := by
  refine ⟨fun _ hx => hx.1, fun {y p} hy hp => ⟨hd.closed_live.parent hy.1 hp, fun hpS => ?_⟩⟩
  obtain ⟨t, ht, -⟩ := hd'.parent (h.under_iff.mpr ⟨hy.2, hp⟩)
  exact ((h.holds p t).mp ht).1 hpS

/-- A change that leaves out nodes below `u`. -/
theorem Pruned.confined (h : Pruned S d d') (hd : d.WellFormed) (hd' : d'.WellFormed)
    (hS : ∀ x ∈ S, TransGen d.Under x u) : Confined u d d' where
  wellFormed := hd'
  keeps := h.keeps fun x hx hxS => hx.2 (hS x hxS)
  reached x hx := by
    have hstay : Keeps {x | d.Live x ∧ x ∉ S} d d' := h.keeps fun _ hx => hx.2
    obtain ⟨t, ht⟩ := hx
    obtain ⟨hxS, s, hs, -⟩ := (h.holds x t).mp ht
    exact (em (TransGen d.Under x u)).imp (hstay.transGen_iff (h.closed hd hd') ⟨hs.live, hxS⟩).mpr
      fun hxu => ⟨hs.live, hxu⟩

/-- A node does not stand at or below a node beside it. -/
theorem WellFormed.not_mem_below_sibling (hd : d.WellFormed) (hb : d.Under b p) (hc : d.Under c p)
    (hne : b ≠ c) : b ∉ d.below [c] := by
  rintro ⟨a, ha, hba⟩
  obtain rfl := List.mem_singleton.mp ha
  rcases hba.cases_head with rfl | ⟨y, hy, hya⟩
  · exact hne rfl
  · obtain rfl := (hd.child hy).unique hb
    exact hd.not_below hc (hd.under_of_below hya)

/-- Of siblings, some are removed with what stands below them, and nothing else is. -/
theorem WellFormed.pruned_clearAmong : ∀ {cs : List NodeId} (owners : List NodeId) {d : Document},
    d.WellFormed → cs.Nodup → (∀ c ∈ cs, d.Under c p) →
      ∃ S, Pruned S d (d.clearAmong owners cs).2 ∧ ∀ x ∈ S, ∃ c ∈ cs, ReflTransGen d.Under x c
  | [], _, d, _, _, _ => ⟨∅, .refl d, fun _ hx => hx.elim⟩
  | c :: cs, owners, d, hd, hnd, hcs => by
    rw [List.nodup_cons] at hnd
    have hc := hcs c List.mem_cons_self
    have hcs' := fun b hb => hcs b (List.mem_cons_of_mem c hb)
    rw [Document.clearAmong]
    split
    · have h := hd.remove hc.live (hc.ne_root hd)
      have hd' := (h.steady hd (by simpa using (hc.ne_root hd).symm)).wellFormed
      obtain ⟨S, hS, hbelow⟩ := hd'.pruned_clearAmong (c :: owners) hnd.2 fun b hb =>
        h.under_iff.mpr
          ⟨hd.not_mem_below_sibling (hcs' b hb) hc fun hbc => hnd.1 (hbc ▸ hb), hcs' b hb⟩
      refine ⟨_, h.trans hS, ?_⟩
      rintro x (⟨a, ha, hxa⟩ | hx)
      · obtain rfl := List.mem_singleton.mp ha
        exact ⟨a, List.mem_cons_self, hd.under_of_below hxa⟩
      · obtain ⟨b, hb, hxb⟩ := hbelow x hx
        exact ⟨b, List.mem_cons_of_mem c hb,
          ReflTransGen.mono (fun _ _ hxy => (h.under_iff.mp hxy).2) _ _ hxb⟩
    · obtain ⟨S, hS, hbelow⟩ := hd.pruned_clearAmong owners hnd.2 hcs'
      refine ⟨S, hS, fun x hx => ?_⟩
      obtain ⟨b, hb, hxb⟩ := hbelow x hx
      exact ⟨b, List.mem_cons_of_mem c hb, hxb⟩

theorem WellFormed.nodup_followingSiblings (hd : d.WellFormed) (c : NodeId) :
    (d.followingSiblings c).Nodup := by
  unfold followingSiblings
  split
  · exact (hd.nodup_children _).sublist (List.drop_sublist _ _)
  · exact List.nodup_nil

/-- Clearing a marker removes siblings after it with what stands below them, and nothing else. -/
theorem WellFormed.pruned_clearOwned (hd : d.WellFormed) (hc : d.Under c p) :
    ∃ S, Pruned S d (d.clearOwned c).2 ∧
      ∀ x ∈ S, ∃ b, d.Under b p ∧ ReflTransGen d.Under x b := by
  have hunder : ∀ x ∈ d.followingSiblings c, d.Under x p := fun x hx => by
    obtain ⟨-, q, hq, hxq⟩ := hd.mem_followingSiblings hx
    exact hq.unique hc ▸ hxq
  obtain ⟨S, hS, hbelow⟩ := hd.pruned_clearAmong [c] (hd.nodup_followingSiblings c) hunder
  refine ⟨S, hS, fun x hx => ?_⟩
  obtain ⟨b, hb, hxb⟩ := hbelow x hx
  exact ⟨b, hunder b hb, hxb⟩

theorem WellFormed.confined_clearOwned (hd : d.WellFormed) (hc : TransGen d.Under c u) :
    Confined u d (d.clearOwned c).2 := by
  obtain ⟨p, hp, hpu⟩ := TransGen.head'_iff.mp hc
  obtain ⟨S, hS, hbelow⟩ := hd.pruned_clearOwned hp
  refine hS.confined hd (hd.clearOwned c).1.wellFormed fun x hx => ?_
  obtain ⟨b, hb, hxb⟩ := hbelow x hx
  exact .trans_right hxb (.head' hb hpu)

/-- A marker and what stands above it are kept when what it owns is cleared. -/
theorem WellFormed.keeps_clearOwned (hd : d.WellFormed) (hc : d.Live c) :
    Keeps {x | ReflTransGen d.Under c x} d (d.clearOwned c).2 :=
  (hd.clearOwned c).2 _ (hd.closed_above hc) fun x hx hxA => by
    obtain ⟨hne, p, hcp, hxp⟩ := hd.mem_followingSiblings hx
    rcases ReflTransGen.cases_head hxA with rfl | ⟨q, hq, hqx⟩
    · exact absurd rfl hne
    · exact absurd (hcp.unique hq ▸ hqx) (hd.not_below hxp)

theorem WellFormed.under_clearOwned (hd : d.WellFormed) (hc : d.Live c) :
    TransGen (d.clearOwned c).2.Under c u ↔ TransGen d.Under c u :=
  (hd.keeps_clearOwned hc).transGen_iff (hd.closed_above hc) .refl

/-! ## Content made aside -/

/-- A new fragment without a parent was made, and everything else that is new stands below it. -/
structure Aside (c : NodeId) (d d' : Document) : Prop where
  wellFormed : d'.WellFormed
  keeps : Keeps {x | d.Live x} d d'
  new : ¬ d.Live c
  top : ∃ s, d'.Holds c s ∧ s.data = .fragment ∧ s.parent = none
  reached : ∀ x, d'.Live x → d.Live x ∨ ReflTransGen d'.Under x c

theorem Fresh.aside (h : Fresh c .fragment d d') : Aside c d d' where
  wellFormed := h.grows.wellFormed
  keeps := h.grows.keeps
  new := h.not_live
  top := ⟨_, h.holds, rfl, rfl⟩
  reached x := fun ⟨t, ht⟩ => (h.old x t ht).symm.imp (fun hx => ⟨t, hx⟩) (by rintro rfl; exact .refl)

namespace Aside

theorem live (h : Aside c d d') : d'.Live c :=
  let ⟨s, hs, _⟩ := h.top
  ⟨s, hs⟩

theorem not_under (h : Aside c d d') : ¬ d'.Under c p := fun ⟨t, ht, hp⟩ => by
  obtain ⟨s, hs, -, hnone⟩ := h.top
  rw [ht.unique hs, hnone] at hp
  cases hp

/-- The nodes that were there before do not stand below the new fragment. -/
theorem not_below (h : Aside c d d') (hd : d.WellFormed) (hx : d.Live x) :
    ¬ TransGen d'.Under x c := fun hxc =>
  h.new (hd.closed_live.above hx
    ((h.keeps.transGen_iff hd.closed_live hx).mp hxc).to_reflTransGen)

/-- Changes below the new fragment leave the other nodes alone. -/
theorem confined (h : Aside c d d') (h' : Confined c d' d'') (hd : d.WellFormed) :
    Aside c d d'' where
  wellFormed := h'.wellFormed
  keeps := h.keeps.trans (h'.keeps.mono fun _ hx => ⟨h.keeps.live hx hx, h.not_below hd hx⟩)
  new := h.new
  top := by
    obtain ⟨s, hs, hdata, hparent⟩ := h.top
    obtain ⟨s', hs', hdata', hparent', -⟩ := h'.keeps c ⟨h.live, h.wellFormed.acyclic c⟩ s hs
    exact ⟨s', hs', hdata'.trans hdata, hparent'.trans hparent⟩
  reached x hx := by
    rcases h'.reached x hx with hxc | ⟨hx', hnot⟩
    · exact .inr hxc.to_reflTransGen
    · refine (h.reached x hx').imp_right fun hxc => ?_
      rcases reflTransGen_iff_eq_or_transGen.mp hxc with rfl | hxc
      · exact .refl
      · exact absurd hxc hnot

end Aside

/-- A new node goes below a node. -/
theorem Fresh.confined_append {data : NodeData} (h : Fresh c data d d') (hd : d.WellFormed)
    (hp : d.Live p) :
    Confined p d (d'.appendChild p c) ∧ (d'.appendChild p c).Under c p := by
  have hlive : d'.Live c := ⟨_, h.holds⟩
  have hne : c ≠ p := fun hcp => h.not_live (hcp ▸ hp)
  have hp' : d'.Live p := h.grows.keeps.live hp hp
  have hmoved := h.grows.wellFormed.appendChild hlive hp' hne
  have hunder := (hmoved.under_iff (x := c) (q := p) hlive).mpr (.inl ⟨rfl, rfl⟩)
  have hkeep : Keeps {x | d.Live x} d (d'.appendChild p c) :=
    h.grows.keeps.trans (hmoved.keeps h.not_live)
  refine ⟨⟨(h.append hd hp.issued).1.wellFormed, hkeep.mono fun x hx => hx.1, fun x hx => ?_⟩, hunder⟩
  obtain ⟨t, ht⟩ := hmoved.live_iff.mp hx
  rcases h.old x t ht with rfl | hx'
  · exact .inl (.single hunder)
  · exact (em (TransGen d.Under x p)).imp (hkeep.transGen_iff hd.closed_live hx'.live).mpr
      fun hxp => ⟨hx'.live, hxp⟩

theorem WellFormed.confined_graftAll : ∀ (ts : List Tree) {d : Document} {p : NodeId},
    d.WellFormed → d.Live p → Confined p d (d.graftAll p ts)
  | [], d, p, hd, _ => by
    rw [Document.graftAll]
    exact .refl hd p
  | .node data ts :: rest, d, p, hd, hp => by
    rw [Document.graftAll, graft]
    obtain ⟨h, hunder⟩ := (hd.create data).confined_append hd hp
    have hts := WellFormed.confined_graftAll ts h.wellFormed hunder.live
    have h1 := h.trans (hts.widen h.wellFormed (.single hunder)) hd
    exact h1.trans (WellFormed.confined_graftAll rest h1.wellFormed
      (h1.keeps.live ⟨hp, hd.acyclic p⟩ hp)) hd

theorem WellFormed.aside_createFragment (hd : d.WellFormed) (html : List Char) :
    Aside (d.createFragment html).1 d (d.createFragment html).2 :=
  have h := (hd.create .fragment).aside
  h.confined (WellFormed.confined_graftAll _ h.wellFormed h.live) hd

theorem WellFormed.confined_setInnerHtml (hd : d.WellFormed) (hc : d.Live c) (html : List Char) :
    Confined c d (d.setInnerHtml c html) := by
  have h : Confined c d (d.removeChildren c) := by
    refine (hd.toDownward.removeChildren hc).confined hd
      (hd.steady_removeChildren hc.issued).1.wellFormed fun x ⟨b, hb, hxb⟩ => ?_
    exact .tail' (hd.under_of_below hxb) (hd.child (hd.mem_children_iff.mp hb))
  exact h.trans (WellFormed.confined_graftAll _ h.wellFormed
    (h.keeps.live ⟨hc, hd.acyclic c⟩ hc)) hd

/-! ## Nodes that go elsewhere -/

/-- Nodes went below another one, and no other links have changed. -/
structure Carried (cs : List NodeId) (p : NodeId) (d d' : Document) : Prop where
  live_iff : ∀ x, d'.Live x ↔ d.Live x
  under_iff : ∀ x q, d'.Under x q ↔ x ∈ cs ∧ q = p ∨ x ∉ cs ∧ d.Under x q

theorem Carried.refl (d : Document) (p : NodeId) : Carried [] p d d :=
  ⟨fun _ => .rfl, fun _ _ => by simp⟩

theorem Moved.carried_trans (h : Moved c p d d') (hc : d.Live c) (h' : Carried cs p d' d'') :
    Carried (c :: cs) p d d'' where
  live_iff x := (h'.live_iff x).trans h.live_iff
  under_iff x q := by
    rw [h'.under_iff, h.under_iff hc, List.mem_cons]
    by_cases hx : x ∈ cs
    · simp [hx]
    · simp [hx]

theorem WellFormed.carried_insertOwnedAfter {m : NodeId} : ∀ {cs : List NodeId} {d : Document}
    {y : NodeId}, d.WellFormed → cs.Nodup → y ∉ cs → d.Under y p →
      (∀ c ∈ cs, d.Live c ∧ d.Placeable c p) →
        Carried cs p d (Document.insertOwnedAfter m d y cs)
  | [], d, _, _, _, _, _, _ => .refl d p
  | c :: cs, d, y, hd, hnd, hy, hyp, hcs => by
    rw [List.nodup_cons] at hnd
    rw [List.mem_cons, not_or] at hy
    rw [Document.insertOwnedAfter]
    obtain ⟨hc, hcp⟩ := hcs c List.mem_cons_self
    obtain ⟨h0, hunder⟩ := hd.own hc m
    have hlive0 : ∀ x, (if (d.owner? c).isNone then d.setOwner c (some m) else d).Live x ↔ d.Live x :=
      fun x => by
        split
        · exact (rewrites_update (f := fun s => { s with owner := some m }) (fun _ => rfl) hc).live_iff
        · exact .rfl
    generalize (if (d.owner? c).isNone then d.setOwner c (some m) else d) = d0 at h0 hunder hlive0
    have hplace0 : ∀ {c p}, d0.Placeable c p ↔ d.Placeable c p := by
      simp only [Placeable, hunder, implies_true]
    simp only [← hunder, ← hplace0, ← hlive0] at hc hcp hcs hyp
    have hd0 := h0.steady.wellFormed
    have h := hd0.insertAfter hc hyp hy.1 hcp.ne
    have h1 := (h.moves hd0 hc hcp).steady.wellFormed
    have hrest := h.carried_trans hc (WellFormed.carried_insertOwnedAfter (m := m) h1 hnd.2 hnd.1
      ((h.under_iff hc).mpr (.inl ⟨rfl, rfl⟩)) fun b hb =>
        ⟨h.live_iff.mpr (hcs b (List.mem_cons_of_mem c hb)).1,
          h.placeable hc hcp (hcs b (List.mem_cons_of_mem c hb)).2⟩)
    exact ⟨fun x => (hrest.live_iff x).trans (hlive0 x), fun x q => by
      rw [hrest.under_iff, hunder]⟩

theorem WellFormed.carried_appendAll : ∀ {cs : List NodeId} {d : Document}, d.WellFormed →
    d.Live p → (∀ c ∈ cs, d.Live c ∧ d.Placeable c p) →
      Carried cs p d (cs.foldl (fun d c => d.appendChild p c) d)
  | [], d, _, _, _ => .refl d p
  | c :: cs, d, hd, hp, hcs => by
    obtain ⟨hc, hcp⟩ := hcs c List.mem_cons_self
    rw [List.foldl_cons]
    have h := hd.appendChild hc hp hcp.ne
    exact h.carried_trans hc (WellFormed.carried_appendAll (h.moves hd hc hcp).steady.wellFormed
      (h.live_iff.mpr hp) fun b hb =>
        ⟨h.live_iff.mpr (hcs b (List.mem_cons_of_mem c hb)).1,
          h.placeable hc hcp (hcs b (List.mem_cons_of_mem c hb)).2⟩)

/-- The children of a fragment went below another node, and the fragment is gone. -/
structure Emptied (F p : NodeId) (d d' : Document) : Prop where
  wellFormed : d'.WellFormed
  keeps : ∀ A, Closed A d → F ∉ A → Keeps A d d'
  live_iff : ∀ x, d'.Live x ↔ d.Live x ∧ x ≠ F
  under_iff : ∀ x q, d'.Under x q ↔ d.Under x F ∧ q = p ∨ ¬ d.Under x F ∧ d.Under x q

/-- A fragment is given up once its children are elsewhere. -/
theorem Carried.emptied (h : Carried (d.children F) p d d') (hmoves : Moves (d.children F) d d')
    (hd : d.WellFormed) {s : Slot} (hF : d.Holds F s) (hdata : s.data = .fragment)
    (hparent : s.parent = none) (hroot : F ≠ root) (hne : p ≠ F) :
    Emptied F p d (d'.releaseFragment F) := by
  have hmem : ∀ {x}, x ∈ d.children F ↔ d.Under x F := fun {x} =>
    hd.mem_children_iff.trans hd.among_iff
  have hd' := hmoves.steady.wellFormed
  have hlive := (h.live_iff F).mpr hF.live
  have hnone : ∀ x, ¬ d'.Under x F := fun x hx => by
    rcases (h.under_iff x F).mp hx with ⟨-, heq⟩ | ⟨hx, hxF⟩
    · exact hne heq.symm
    · exact hx (hmem.mpr hxF)
  have hchildren : d'.children F = [] :=
    List.eq_nil_iff_forall_not_mem.mpr fun x hx => hnone x (hd'.child (hd'.mem_children_iff.mp hx))
  have hfragment : d'.data F = .fragment := by
    obtain ⟨s', hs', hdata', -⟩ := hmoves.keeps {F} (fun c hc hcF => by
      obtain rfl : c = F := hcF
      obtain ⟨t, ht, hp⟩ := hmem.mp hc
      rw [ht.unique hF, hparent] at hp
      cases hp) F rfl s hF
    rw [hs'.data_eq, hdata', hdata]
  have hself : d'.releaseFragment F = d'.remove F := by
    unfold Document.releaseFragment
    rw [if_pos (by simp [hfragment, hchildren])]
  have hbelow : ∀ x, x ∈ d'.below [F] ↔ x = F := fun x => by
    constructor
    · rintro ⟨a, ha, hxa⟩
      obtain rfl := List.mem_singleton.mp ha
      rcases hxa.cases_tail with rfl | ⟨y, -, hy⟩
      · rfl
      · exact absurd (hd'.child hy) (hnone y)
    · rintro rfl
      exact ⟨x, List.mem_singleton_self x, .refl⟩
  have hpruned := hd'.remove hlive hroot
  obtain ⟨hsteady, hkeeps⟩ := hmoves.thenRelease hd hF.live.issued
  refine ⟨hsteady.wellFormed, hkeeps, fun x => ?_, fun x q => ?_⟩
  · rw [hself, ← h.live_iff]
    constructor
    · rintro ⟨t, ht⟩
      obtain ⟨hx, s, hs, -⟩ := (hpruned.holds x t).mp ht
      exact ⟨hs.live, fun hxF => hx ((hbelow x).mpr hxF)⟩
    · rintro ⟨⟨s, hs⟩, hx⟩
      exact ⟨_, (hpruned.holds x _).mpr ⟨fun hxF => hx ((hbelow x).mp hxF), s, hs, rfl⟩⟩
  · rw [hself, hpruned.under_iff, hbelow, h.under_iff, hmem]
    refine and_iff_right_of_imp ?_
    rintro (⟨⟨t, ht, hp⟩, -⟩ | ⟨-, t, ht, hp⟩) rfl <;>
      (rw [ht.unique hF, hparent] at hp; cases hp)

section

variable (h : Aside F d d') (hd : d.WellFormed)
include h hd

theorem Aside.emptied (hp : d.Live p) (hcarried : Carried (d'.children F) p d' d'')
    (hmoves : Moves (d'.children F) d' d'') : Emptied F p d' (d''.releaseFragment F) := by
  obtain ⟨s, hs, hdata, hparent⟩ := h.top
  obtain ⟨t, ht, -⟩ := hd.rooted
  exact hcarried.emptied hmoves h.wellFormed hs hdata hparent (fun heq => h.new (heq ▸ ht.live))
    fun heq => h.new (heq ▸ hp)

theorem Aside.placeable (hp : d.Live p) :
    ∀ c ∈ d'.children F, d'.Live c ∧ d'.Placeable c p := fun _ hc =>
  ⟨(h.wellFormed.child (h.wellFormed.mem_children_iff.mp hc)).live,
    placeable_of_new hd h.wellFormed h.keeps h.new hp hc⟩

theorem Aside.emptied_insertOwned {m : NodeId} (hm : d.Under m p) :
    Emptied F p d' (d'.insertOwned m F).2 := by
  have hp := hd.closed_live.parent hm.live hm
  have hm' := (h.keeps.under_iff hd.closed_live hm.live).mpr hm
  have hnot : m ∉ d'.children F := fun hmF => h.new
    (hd.closed_live.parent hm.live ((h.keeps.under_iff hd.closed_live hm.live).mp
      (h.wellFormed.child (h.wellFormed.mem_children_iff.mp hmF))))
  have hplace := h.placeable hd hp
  refine h.emptied hd hp (h.wellFormed.carried_insertOwnedAfter (h.wellFormed.nodup_children F) hnot
    hm' hplace) (h.wellFormed.insertOwnedAfter (h.wellFormed.nodup_children F) (fun c hc =>
      h.wellFormed.child (h.wellFormed.mem_children_iff.mp hc)) fun q hq c hc => ?_)
  exact hq.unique hm' ▸ (hplace c hc).2

theorem Aside.emptied_appendFragment (hp : d.Live p) : Emptied F p d' (d'.appendFragment p F) :=
  have hp' := h.keeps.live hp hp
  h.emptied hd hp (h.wellFormed.carried_appendAll hp' (h.placeable hd hp))
    (h.wellFormed.appendAll hp'.issued (h.placeable hd hp))

/-- Content that was made aside goes below a node. -/
theorem Aside.confined_emptied (he : Emptied F p d' d'') (hp : ReflTransGen d.Under p u)
    (hlive : d.Live p) : Confined u d d'' := by
  have hkeep : Keeps {x | d.Live x} d d'' :=
    h.keeps.trans (he.keeps _ (h.keeps.closed hd.closed_live) h.new)
  have hpu : ReflTransGen d''.Under p u := by
    rcases reflTransGen_iff_eq_or_transGen.mp hp with rfl | hp
    · exact .refl
    · exact ((hkeep.transGen_iff hd.closed_live hlive).mpr hp).to_reflTransGen
  have hnew : ∀ x, TransGen d'.Under x F → TransGen d''.Under x p := fun x hx => by
    induction hx using TransGen.head_induction_on with
    | single hx => exact .single ((he.under_iff _ _).mpr (.inl ⟨hx, rfl⟩))
    | head hxy hyF ih =>
      refine .head ((he.under_iff _ _).mpr (.inr ⟨fun hxF => ?_, hxy⟩)) ih
      exact h.wellFormed.acyclic F (hxF.unique hxy ▸ hyF)
  refine ⟨he.wellFormed, hkeep.mono fun x hx => hx.1, fun x hx => ?_⟩
  obtain ⟨hx', hne⟩ := (he.live_iff x).mp hx
  rcases h.reached x hx' with hold | hxF
  · exact (em (TransGen d.Under x u)).imp (hkeep.transGen_iff hd.closed_live hold).mpr
      fun hxu => ⟨hold, hxu⟩
  · rcases reflTransGen_iff_eq_or_transGen.mp hxF with heq | hxF
    · exact absurd heq.symm hne
    · exact .inl ((hnew x hxF).trans_left hpu)

/-- Content that was made aside goes after a marker. -/
theorem Aside.confined_insertOwned {m : NodeId} (hm : TransGen d.Under m u) :
    Confined u d (d'.insertOwned m F).2 := by
  obtain ⟨p, hmp, hpu⟩ := TransGen.head'_iff.mp hm
  exact h.confined_emptied hd (h.emptied_insertOwned hd hmp) hpu (hd.closed_live.parent hmp.live hmp)

/-- Content that was made aside goes to the end of a node's children. -/
theorem Aside.confined_appendFragment (hp : d.Live p) : Confined p d (d'.appendFragment p F) :=
  h.confined_emptied hd (h.emptied_appendFragment hd hp) .refl hp

end

/-! ## Attached nodes -/

/-- Every node that has not been removed is the root or stands below it. -/
def AllAttached (d : Document) : Prop :=
  ∀ x, d.Live x → d.isAttached x = true

theorem WellFormed.live_of_isAttached (hd : d.WellFormed) (hx : d.isAttached x = true) : d.Live x := by
  rcases (hd.isAttached_iff.mp hx).cases_head with rfl | ⟨y, hy, -⟩
  · obtain ⟨s, hs, -⟩ := hd.rooted
    exact hs.live
  · exact hy.live

theorem Confined.allAttached (h : Confined root d d') (hd : d.WellFormed) (ha : d.AllAttached) :
    d'.AllAttached := fun x hx => by
  rw [h.wellFormed.isAttached_iff]
  rcases h.reached x hx with hx | ⟨hx, hnot⟩
  · exact hx.to_reflTransGen
  · rcases reflTransGen_iff_eq_or_transGen.mp (hd.isAttached_iff.mp (ha x hx)) with heq | hroot
    · exact heq ▸ .refl
    · exact absurd hroot hnot

theorem allAttached_empty : empty.AllAttached := fun x ⟨s, hs⟩ => by
  rw [(holds_empty hs).1]
  rfl

/-- Every node of a parsed document stands below its root. -/
theorem allAttached_parse (html : List Char) : (parse html).AllAttached :=
  have hroot : empty.Live root := ⟨{ data := .root }, rfl, rfl⟩
  (WellFormed.confined_graftAll _ wellFormed_empty hroot).allAttached wellFormed_empty allAttached_empty

/-- If no node was lost, the live nodes are those of the tree below the root. -/
theorem WellFormed.liveNodes_eq (hd : d.WellFormed) (ha : d.AllAttached) :
    d.liveNodes = (root :: d.descendants root).length := by
  obtain ⟨s, hs, -⟩ := hd.rooted
  have hmem : ∀ x, x ∈ root :: d.descendants root ↔ d.Live x := fun x => by
    rw [List.mem_cons, hd.mem_descendants_iff hs.live]
    constructor
    · rintro (rfl | hx)
      · exact hs.live
      · exact live_of_below hx
    · exact fun hx => (reflTransGen_iff_eq_or_transGen.mp (hd.isAttached_iff.mp (ha x hx))).imp
        Eq.symm id
  have hnd : ((root :: d.descendants root).map NodeId.index).Nodup :=
    (List.nodup_map_iff_inj_on (hd.nodup_descendants hs.live)).mpr fun x hx y hy hxy =>
      ((hmem x).mp hx).eq_of_index_eq ((hmem y).mp hy) hxy
  have hperm : ((root :: d.descendants root).map NodeId.index ++ d.free).Perm
      (List.range d.slots.size) := by
    refine (List.perm_ext_iff_of_nodup (hnd.append hd.nodup fun i hi hfree => ?_)
      List.nodup_range).mpr fun i => ?_
    · obtain ⟨x, hx, rfl⟩ := List.mem_map.mp hi
      obtain ⟨t, ht⟩ := (hmem x).mp hx
      exact not_mem_free ht hfree
    · rw [List.mem_append, List.mem_range]
      constructor
      · rintro (hi | hi)
        · obtain ⟨x, hx, rfl⟩ := List.mem_map.mp hi
          obtain ⟨t, ht⟩ := (hmem x).mp hx
          exact lt_of_used? ht.1
        · exact hd.bounds i hi
      · refine fun hi => (em (i ∈ d.free)).symm.imp_left fun hfree => ?_
        obtain ⟨t, ht⟩ : ∃ t, d.slots[i]? = some t := ⟨_, Array.getElem?_eq_getElem hi⟩
        exact List.mem_map.mpr ⟨⟨i, t.generation⟩,
          (hmem _).mpr ⟨t, by rw [used?, if_neg hfree, ht], rfl⟩, rfl⟩
  have hlength := hperm.length_eq
  rw [List.length_append, List.length_map, List.length_range] at hlength
  unfold liveNodes
  omega

end LiveMarkup.Document
