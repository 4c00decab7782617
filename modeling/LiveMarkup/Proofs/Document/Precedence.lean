import LiveMarkup.Proofs.Document.Course

/-!
# Owners stand before what they own

What owns a node stands beside it, and not after it, from the moment on when it comes to own it
(`OwnersPrecede`).  So whenever an owner is removed, in whatever way, all that it owns goes with it
(`WellFormed.clearOwned_owns`), and no handle of an owner is left behind.
-/

namespace LiveMarkup.Document

open Relation

variable {d d' d'' : Document} {x y a b c m p q u w F : NodeId} {cs L R : List NodeId} {A S : Set NodeId}
  {e : NodeId → Slot → Slot}

/-- A node is owned by another one. -/
def Owns (d : Document) (w x : NodeId) : Prop :=
  ∃ s, d.Holds x s ∧ s.owner = some w

/-- What owns a node stands beside it, and not after it. -/
structure OwnersPrecede (d : Document) : Prop where
  beside : ∀ {x w : NodeId}, d.Owns w x → ∃ p, d.Under x p ∧ d.Under w p
  before : ∀ p : NodeId, (d.children p).Pairwise fun a b => ¬ d.Owns b a

theorem Holds.owns_iff {s : Slot} (h : d.Holds x s) : d.Owns w x ↔ d.owner? x = some w := by
  rw [h.owner?_eq]
  constructor
  · rintro ⟨t, ht, hw⟩
    rwa [h.unique ht]
  · exact fun hw => ⟨s, h, hw⟩

theorem WellFormed.owner?_eq_some_iff (hd : d.WellFormed) : d.owner? x = some w ↔ d.Owns w x := by
  constructor
  · intro hw
    obtain ⟨s, hs, howner⟩ := Option.bind_eq_some_iff.mp hw
    rcases hd.slot?_cases hs with hs | ⟨g, rfl⟩
    · exact ⟨s, hs, howner⟩
    · cases howner
  · rintro ⟨s, hs, hw⟩
    rw [hs.owner?_eq, hw]

theorem Rewrites.owns_iff (h : Rewrites e d d') (howner : ∀ x s, d.Holds x s → (e x s).owner = s.owner) :
    d'.Owns w x ↔ d.Owns w x := by
  constructor
  · rintro ⟨t, ht, hw⟩
    obtain ⟨s, hs, rfl⟩ := (h.holds x t).mp ht
    exact ⟨s, hs, (howner x s hs).symm.trans hw⟩
  · rintro ⟨s, hs, hw⟩
    exact ⟨_, h.holds_of hs, (howner x s hs).trans hw⟩

theorem Moved.owns_iff (h : Moved c p d d') : d'.Owns w x ↔ d.Owns w x := by
  obtain ⟨s, A, B, -, -, h⟩ := h
  exact h.owns_iff fun _ _ _ => rfl

theorem Pruned.owns_iff (h : Pruned S d d') : d'.Owns w x ↔ x ∉ S ∧ d.Owns w x := by
  constructor
  · rintro ⟨t, ht, hw⟩
    obtain ⟨hx, s, hs, rfl⟩ := (h.holds x t).mp ht
    exact ⟨hx, s, hs, hw⟩
  · rintro ⟨hx, s, hs, hw⟩
    exact ⟨_, (h.holds x _).mpr ⟨hx, s, hs, rfl⟩, hw⟩

theorem Keeps.owns_iff (h : Keeps A d d') (hA : Closed A d) (hx : x ∈ A) : d'.Owns w x ↔ d.Owns w x := by
  obtain ⟨s, hs⟩ := hA.live x hx
  obtain ⟨s', hs', -, -, howner, -⟩ := h x hx s hs
  rw [hs.owns_iff, hs'.owns_iff, hs.owner?_eq, hs'.owner?_eq, howner]

theorem WellFormed.mem_children (hd : d.WellFormed) : x ∈ d.children q ↔ d.Under x q :=
  hd.mem_children_iff.trans hd.among_iff

theorem WellFormed.children_of_not_live (hd : d.WellFormed) (hq : ¬ d.Live q) : d.children q = [] := by
  refine List.eq_nil_iff_forall_not_mem.mpr fun x hx => hq ?_
  obtain ⟨s, hs, -⟩ := hd.mem_children_iff.mp hx
  exact hs.live

theorem Rewrites.children_eq (h : Rewrites e d d') (hd : d.WellFormed) (hd' : d'.WellFormed)
    (hchildren : ∀ x s, d.Holds x s → (e x s).children = s.children) : d'.children q = d.children q := by
  by_cases hq : d.Live q
  · obtain ⟨s, hs⟩ := hq
    rw [(h.holds_of hs).children_eq, hchildren q s hs, hs.children_eq]
  · rw [hd.children_of_not_live hq, hd'.children_of_not_live (h.live_iff.not.mpr hq)]

namespace OwnersPrecede

/-- Where owners are kept with what they own, and what is new has no owner, owners stay before what
they own. -/
theorem keeps (h : d.OwnersPrecede) (hd' : d'.WellFormed) (hA : Closed A d)
    (hk : Keeps A d d') (howner : ∀ x ∈ A, ∀ w, d.Owns w x → w ∈ A)
    (hnew : ∀ x w, d'.Owns w x → x ∈ A) : d'.OwnersPrecede where
  beside {x w} hw := by
    have hx := hnew x w hw
    have hw := (hk.owns_iff hA hx).mp hw
    obtain ⟨p, hxp, hwp⟩ := h.beside hw
    exact ⟨p, (hk.under_iff hA hx).mpr hxp, (hk.under_iff hA (howner x hx w hw)).mpr hwp⟩
  before p := by
    classical
    by_cases hp : p ∈ A
    · obtain ⟨s, hs⟩ := hA.live p hp
      obtain ⟨s', hs', -, -, -, hchildren⟩ := hk p hp s hs
      have hbefore := (h.before p).filter (· ∈ A)
      rw [hs.children_eq, ← hchildren, List.pairwise_filter] at hbefore
      rw [hs'.children_eq]
      refine hbefore.imp fun {a b} hab hw => ?_
      have ha := hnew a b hw
      have hw := (hk.owns_iff hA ha).mp hw
      exact hab (by simpa using ha) (by simpa using howner a ha b hw) hw
    · refine List.pairwise_of_forall_mem_list fun a ha b _ hw => hp ?_
      have hx := hnew a b hw
      exact hA.parent hx ((hk.under_iff hA hx).mp (hd'.child (hd'.mem_children_iff.mp ha)))

/-- Links and owners stay as they are. -/
theorem rewrites (h : d.OwnersPrecede) (hd : d.WellFormed) (hd' : d'.WellFormed) (hr : Rewrites e d d')
    (hparent : ∀ x s, d.Holds x s → (e x s).parent = s.parent)
    (hchildren : ∀ x s, d.Holds x s → (e x s).children = s.children)
    (howner : ∀ x s, d.Holds x s → (e x s).owner = s.owner) : d'.OwnersPrecede where
  beside {x w} hw := by
    obtain ⟨p, hxp, hwp⟩ := h.beside ((hr.owns_iff howner).mp hw)
    exact ⟨p, (hr.under_iff hparent).mpr hxp, (hr.under_iff hparent).mpr hwp⟩
  before p := by
    rw [hr.children_eq hd hd' hchildren]
    exact (h.before p).imp fun hab hw => hab ((hr.owns_iff howner).mp hw)

/-- Nothing new has an owner. -/
theorem grows (h : d.OwnersPrecede) (hd : d.WellFormed) (hg : Grows d d')
    (howns : ∀ x w, d'.Owns w x → d.Owns w x) : d'.OwnersPrecede :=
  h.keeps hg.wellFormed hd.closed_live hg.keeps
    (fun x _ w hw => by
      obtain ⟨p, -, hwp⟩ := h.beside hw
      exact hwp.live)
    fun x w hw => by
      obtain ⟨s, hs, -⟩ := howns x w hw
      exact hs.live

/-- With an owner all that it owns is removed. -/
theorem pruned (h : d.OwnersPrecede) (hd : d.WellFormed) (hd' : d'.WellFormed) (hS : Pruned S d d')
    (hdown : ∀ x p, d.Under x p → p ∈ S → x ∈ S) (howner : ∀ x w, d.Owns w x → w ∈ S → x ∈ S) :
    d'.OwnersPrecede := by
  refine h.keeps (A := {x | d.Live x ∧ x ∉ S}) hd' ⟨fun _ hx => hx.1, fun {x p} hx hp => ?_⟩
    (hS.keeps fun _ hx => hx.2) (fun x hx w hw => ?_) fun x w hw => ?_
  · exact ⟨hd.closed_live.parent hx.1 hp, fun hpS => hx.2 (hdown x p hp hpS)⟩
  · obtain ⟨p, -, hwp⟩ := h.beside hw
    exact ⟨hwp.live, fun hwS => hx.2 (howner x w hw hwS)⟩
  · obtain ⟨hx, s, hs, -⟩ := hS.owns_iff.mp hw
    exact ⟨hs.live, hx⟩

end OwnersPrecede

/-! ## New content -/

theorem Fresh.owns_iff {data : NodeData} (h : Fresh c data d d') : d'.Owns w x ↔ d.Owns w x := by
  constructor
  · rintro ⟨t, ht, hw⟩
    rcases h.old x t ht with rfl | ht'
    · obtain rfl := ht.unique h.holds
      cases hw
    · exact ⟨t, ht', hw⟩
  · rintro ⟨s, hs, hw⟩
    obtain ⟨s', hs', -, -, howner, -⟩ := h.grows.keeps x hs.live s hs
    exact ⟨s', hs', howner.trans hw⟩

theorem WellFormed.owns_graftAll : ∀ (ts : List Tree) {d : Document} {p : NodeId}, d.WellFormed →
    d.Live p → ((d.graftAll p ts).Owns w x ↔ d.Owns w x)
  | [], d, p, _, _ => by rw [Document.graftAll]
  | .node data ts :: rest, d, p, hd, hp => by
    rw [Document.graftAll, graft]
    have hnew := hd.create data
    obtain ⟨h, hunder⟩ := hnew.confined_append hd hp
    have hts := WellFormed.confined_graftAll ts h.wellFormed hunder.live
    have h1 := h.trans (hts.widen h.wellFormed (.single hunder)) hd
    have hmoved := hnew.grows.wellFormed.appendChild ⟨_, hnew.holds⟩ (hnew.grows.keeps.live hp hp)
      fun hcp => hnew.not_live (hcp ▸ hp)
    rw [WellFormed.owns_graftAll rest h1.wellFormed (h1.keeps.live ⟨hp, hd.acyclic p⟩ hp),
      WellFormed.owns_graftAll ts h.wellFormed hunder.live, hmoved.owns_iff, hnew.owns_iff]

theorem OwnersPrecede.graftAll (h : d.OwnersPrecede) (hd : d.WellFormed) (hp : d.Live p)
    (ts : List Tree) : (d.graftAll p ts).OwnersPrecede :=
  h.grows hd (hd.graftAll ts hp.issued) fun _ _ => (hd.owns_graftAll ts hp).mp

theorem OwnersPrecede.createFragment (h : d.OwnersPrecede) (hd : d.WellFormed) (html : List Char) :
    (d.createFragment html).2.OwnersPrecede := by
  have hnew := hd.create .fragment
  exact (h.grows hd hnew.grows fun _ _ => hnew.owns_iff.mp).graftAll hnew.grows.wellFormed
    ⟨_, hnew.holds⟩ _

/-! ## Removing -/

/-- An owner that is removed, at or below one of some nodes, is one of these nodes, or stands below one
of them beside all that it owns. -/
theorem OwnersPrecede.pruned_below (h : d.OwnersPrecede) (hd : d.WellFormed) (hd' : d'.WellFormed)
    (hS : Pruned (d.below cs) d d') (hcs : ∀ c ∈ cs, ∀ x, d.Owns c x → x ∈ d.below cs) :
    d'.OwnersPrecede := by
  refine h.pruned hd hd' hS (fun x p hp => below_of_among (hd.parent hp)) fun x w hw hwS => ?_
  obtain ⟨c, hc, hwc⟩ := hwS
  rcases hwc.cases_head with rfl | ⟨q, hq, hqc⟩
  · exact hcs w hc x hw
  · obtain ⟨p, hxp, hwp⟩ := h.beside hw
    obtain rfl := (hd.child hq).unique hwp
    exact below_of_among (hd.parent hxp) ⟨c, hc, hqc⟩

theorem OwnersPrecede.setInnerHtml (h : d.OwnersPrecede) (hd : d.WellFormed) (hc : d.Live c)
    (html : List Char) : (d.setInnerHtml c html).OwnersPrecede := by
  obtain ⟨hsteady, -⟩ := hd.steady_removeChildren hc.issued
  have hpruned := hd.toDownward.removeChildren hc
  have hcleared : (d.removeChildren c).OwnersPrecede := by
    refine h.pruned_below hd hsteady.wellFormed hpruned fun b hb x hw => ?_
    obtain ⟨p, hxp, hbp⟩ := h.beside hw
    obtain rfl := hbp.unique (hd.child (hd.mem_children_iff.mp hb))
    exact ⟨x, hd.mem_children_iff.mpr (hd.parent hxp), .refl⟩
  refine hcleared.graftAll hsteady.wellFormed ?_ _
  obtain ⟨s, hs⟩ := hc
  refine ⟨_, (hpruned.holds c _).mpr ⟨?_, s, hs, rfl⟩⟩
  rintro ⟨b, hb, hcb⟩
  exact hd.not_below (hd.child (hd.mem_children_iff.mp hb)) (hd.under_of_below hcb)

/-- Of siblings in order, those in `gone` are removed, and with an owner all that it owns. -/
structure ClearedAmong (owners cs gone : List NodeId) (S : Set NodeId) (d d' : Document) : Prop where
  pruned : Pruned S d d'
  sub : ∀ c ∈ gone, c ∈ cs ∧ c ∈ S
  top : ∀ x ∈ S, ∃ c ∈ gone, ReflTransGen d.Under x c
  down : ∀ x p, d.Under x p → p ∈ S → x ∈ S
  stays : ∀ c ∈ cs, c ∉ gone → ∀ w, d.Owns w c → w ∉ owners ∧ w ∉ gone

theorem ClearedAmong.below {owners gone : List NodeId} (h : ClearedAmong owners cs gone S d d')
    (hxc : ReflTransGen d.Under x c) (hc : c ∈ S) : x ∈ S := by
  induction hxc using ReflTransGen.head_induction_on with
  | refl => exact hc
  | head hxy _ ih => exact h.down _ _ hxy ih

theorem WellFormed.clearedAmong : ∀ {cs : List NodeId} (owners : List NodeId) {d : Document},
    d.WellFormed → cs.Nodup → (∀ c ∈ cs, d.Under c p) → (cs.Pairwise fun a b => ¬ d.Owns b a) →
      ∃ gone S, ClearedAmong owners cs gone S d (d.clearAmong owners cs).2
  | [], _, d, _, _, _, _ => ⟨[], ∅, .refl d, fun _ hc => (List.not_mem_nil hc).elim, fun _ hx => hx.elim,
      fun _ _ _ hx => hx.elim, fun _ hc => (List.not_mem_nil hc).elim⟩
  | c :: cs, owners, d, hd, hnd, hcs, hbefore => by
    rw [List.nodup_cons] at hnd
    rw [List.pairwise_cons] at hbefore
    have hc := hcs c List.mem_cons_self
    have hcs' := fun b hb => hcs b (List.mem_cons_of_mem c hb)
    have howner : (d.owner? c).any (· ∈ owners) = true ↔ ∃ w ∈ owners, d.Owns w c := by
      obtain ⟨s, hs, -⟩ := hc
      simp [hs.owns_iff, Option.any_eq_true, and_comm]
    rw [Document.clearAmong]
    split
    · have h := hd.remove hc.live (hc.ne_root hd)
      have hd' := (h.steady hd (by simpa using (hc.ne_root hd).symm)).wellFormed
      have hbeside : ∀ b ∈ cs, b ∉ d.below [c] := fun b hb =>
        hd.not_mem_below_sibling (hcs' b hb) hc fun hbc => hnd.1 (hbc ▸ hb)
      obtain ⟨gone, S, hS⟩ := hd'.clearedAmong (c :: owners) hnd.2
        (fun b hb => h.under_iff.mpr ⟨hbeside b hb, hcs' b hb⟩)
        (hbefore.2.imp fun hab hw => hab (h.owns_iff.mp hw).2)
      refine ⟨c :: gone, _, h.trans hS.pruned, ?_, ?_, ?_, ?_⟩
      · intro b hb
        rcases List.mem_cons.mp hb with rfl | hb
        · exact ⟨List.mem_cons_self, .inl ⟨b, List.mem_singleton_self b, .refl⟩⟩
        · exact ⟨List.mem_cons_of_mem c (hS.sub b hb).1, .inr (hS.sub b hb).2⟩
      · rintro x (⟨a, ha, hxa⟩ | hx)
        · obtain rfl := List.mem_singleton.mp ha
          exact ⟨a, List.mem_cons_self, hd.under_of_below hxa⟩
        · obtain ⟨b, hb, hxb⟩ := hS.top x hx
          exact ⟨b, List.mem_cons_of_mem c hb,
            ReflTransGen.mono (fun _ _ hxy => (h.under_iff.mp hxy).2) _ _ hxb⟩
      · rintro x q hxq (hq | hq)
        · exact .inl (below_of_among (hd.parent hxq) hq)
        · by_cases hx : x ∈ d.below [c]
          · exact .inl hx
          · exact .inr (hS.down x q (h.under_iff.mpr ⟨hx, hxq⟩) hq)
      · intro b hb hgone w hw
        rw [List.mem_cons, not_or] at hgone
        have hb := (List.mem_cons.mp hb).resolve_left hgone.1
        obtain ⟨h1, h2⟩ := hS.stays b hb hgone.2 w (h.owns_iff.mpr ⟨hbeside b hb, hw⟩)
        rw [List.mem_cons, not_or] at h1 ⊢
        exact ⟨h1.2, h1.1, h2⟩
    · rename_i hstay
      obtain ⟨gone, S, hS⟩ := hd.clearedAmong owners hnd.2 hcs' hbefore.2
      refine ⟨gone, S, hS.pruned, fun b hb => ⟨List.mem_cons_of_mem c (hS.sub b hb).1, (hS.sub b hb).2⟩,
        hS.top, hS.down, fun b hb hgone w hw => ?_⟩
      rcases List.mem_cons.mp hb with rfl | hb
      · exact ⟨fun hmem => hstay (howner.mpr ⟨w, hmem, hw⟩),
          fun hmem => hbefore.1 w (hS.sub w hmem).1 hw⟩
      · exact hS.stays b hb hgone w hw

/-- The siblings after a node are the end of the list in which it stands. -/
theorem WellFormed.followingSiblings_eq (hd : d.WellFormed) (hc : d.Under c p) :
    ∃ L, d.children p = L ++ c :: d.followingSiblings c := by
  have hparent := hd.parent?_eq_some_iff.mpr hc
  obtain ⟨i, hi⟩ : ∃ i, (d.children p).findIdx? (· = c) = some i :=
    Option.isSome_iff_exists.mp (List.findIdx?_isSome.trans (List.any_eq_true.mpr
      ⟨c, hd.mem_children_iff.mpr (hd.parent hc), decide_eq_true rfl⟩))
  obtain ⟨hlt, hat, -⟩ := List.findIdx?_eq_some_iff_getElem.mp hi
  refine ⟨(d.children p).take i, ?_⟩
  unfold followingSiblings position?
  simp only [hparent, Option.bind_eq_bind, Option.bind_some, hi]
  rw [← of_decide_eq_true hat, ← List.drop_eq_getElem_cons hlt, List.take_append_drop]

/-- Clearing removes with an owner all that it owns. -/
theorem OwnersPrecede.clearOwned (h : d.OwnersPrecede) (hd : d.WellFormed) (hm : d.Under m p) :
    (d.clearOwned m).2.OwnersPrecede := by
  obtain ⟨L, hchildren⟩ := hd.followingSiblings_eq hm
  have hafter : ∀ b ∈ d.followingSiblings m, b ∈ d.children p := fun b hb => by
    rw [hchildren]
    exact List.mem_append_right L (List.mem_cons_of_mem m hb)
  have hunder : ∀ b ∈ d.children p, d.Under b p := fun b hb => hd.child (hd.mem_children_iff.mp hb)
  have hbefore := h.before p
  rw [hchildren, List.pairwise_append] at hbefore
  obtain ⟨gone, S, hS⟩ := hd.clearedAmong [m] (hd.nodup_followingSiblings m)
    (fun b hb => hunder b (hafter b hb)) hbefore.2.1.of_cons
  refine h.pruned hd (hd.clearOwned m).1.wellFormed hS.pruned hS.down fun x w hw hwS => ?_
  obtain ⟨q, hxq, hwq⟩ := h.beside hw
  obtain ⟨c, hc, hwc⟩ := hS.top w hwS
  rcases hwc.cases_head with rfl | ⟨q', hq', hqc⟩
  · -- the owner is one of the siblings that are removed, so what it owns comes after it
    obtain ⟨hmem, -⟩ := hS.sub w hc
    obtain rfl := (hunder w (hafter w hmem)).unique hwq
    have hx := hd.mem_children_iff.mpr (hd.parent hxq)
    rw [hchildren] at hx
    have hx : x ∈ d.followingSiblings m := by
      rcases List.mem_append.mp hx with hx | hx
      · exact absurd hw (hbefore.2.2 x hx w (List.mem_cons_of_mem m hmem))
      · rcases List.mem_cons.mp hx with rfl | hx
        · exact absurd hw (List.rel_of_pairwise_cons hbefore.2.1 hmem)
        · exact hx
    by_contra hxS
    exact (hS.stays x hx (fun hgone => hxS (hS.sub x hgone).2) w hw).2 hc
  · obtain rfl := hwq.unique hq'
    exact hS.down x q hxq (hS.below hqc (hS.sub c hc).2)

/-- A marker stays below its parent when what it owns is cleared. -/
theorem WellFormed.under_clearOwned_parent (hd : d.WellFormed) (hm : d.Under m p) :
    (d.clearOwned m).2.Under m p :=
  ((hd.keeps_clearOwned hm.live).under_iff (hd.closed_above hm.live) .refl).mpr hm

/-! ## Moving -/

/-- Nodes `cs` stand among the children of `p` now, in their order, and nowhere else. -/
structure Spliced (cs L R : List NodeId) (p : NodeId) (d d' : Document) : Prop where
  here : d'.children p = L ++ (cs ++ R)
  elsewhere : ∀ q, q ≠ p → d'.children q = (d.children q).filter (· ∉ cs)

/-- The children of a node go elsewhere, and get owners at most that stand before them there. -/
theorem OwnersPrecede.spliced (h : d.OwnersPrecede) (hd : d.WellFormed) (hd' : d'.WellFormed)
    (hs : Spliced (d.children F) L R p d d') (hp : d.children p = L ++ R)
    (howns : ∀ x w, d'.Owns w x → d.Owns w x ∨ x ∈ d.children F ∧ w ∈ L) : d'.OwnersPrecede := by
  have hnd := hd'.nodup_children p
  rw [hs.here, List.nodup_append, List.nodup_append] at hnd
  obtain ⟨-, ⟨-, -, hF⟩, hL⟩ := hnd
  have hLF : ∀ a ∈ L, a ∉ d.children F := fun a ha hmem => hL a ha a (List.mem_append_left R hmem) rfl
  have hRF : ∀ a ∈ R, a ∉ d.children F := fun a ha hmem => hF a hmem a ha rfl
  have hinside : ∀ {x w}, x ∈ d.children F → d.Owns w x → w ∈ d.children F := fun hx hw => by
    obtain ⟨q, hxq, hwq⟩ := h.beside hw
    obtain rfl := hxq.unique (hd.mem_children.mp hx)
    exact hd.mem_children.mpr hwq
  -- a node that stays has an owner that stays
  have hrest : ∀ {x w}, x ∉ d.children F → d'.Owns w x → d.Owns w x ∧ w ∉ d.children F := by
    intro x w hx hw
    have hw := (howns x w hw).resolve_right fun hmem => hx hmem.1
    obtain ⟨q, hxq, hwq⟩ := h.beside hw
    refine ⟨hw, fun hmem => hx (hd.mem_children.mpr ?_)⟩
    obtain rfl := hwq.unique (hd.mem_children.mp hmem)
    exact hxq
  refine ⟨fun {x w} hw => ?_, fun q => ?_⟩
  · by_cases hx : x ∈ d.children F
    · have hplace : ∀ y ∈ L ++ d.children F, d'.Under y p := fun y hy => hd'.mem_children.mp (by
        rw [hs.here, ← List.append_assoc]
        exact List.mem_append_left R hy)
      refine ⟨p, hplace x (List.mem_append_right L hx), hplace w ?_⟩
      rcases howns x w hw with hw | ⟨-, hw⟩
      · exact List.mem_append_right L (hinside hx hw)
      · exact List.mem_append_left _ hw
    · obtain ⟨hw, hwF⟩ := hrest hx hw
      obtain ⟨q, hxq, hwq⟩ := h.beside hw
      have hstay : ∀ y, y ∉ d.children F → d.Under y q → d'.Under y q := fun y hy hyq => by
        refine hd'.mem_children.mp ?_
        by_cases hq : q = p
        · subst hq
          have hmem := hd.mem_children.mpr hyq
          rw [hp] at hmem
          rw [hs.here]
          exact (List.mem_append.mp hmem).elim (List.mem_append_left _)
            fun hR => List.mem_append_right L (List.mem_append_right _ hR)
        · rw [hs.elsewhere q hq]
          exact List.mem_filter.mpr ⟨hd.mem_children.mpr hyq, by simpa using hy⟩
      exact ⟨q, hstay x hx hxq, hstay w hwF hwq⟩
  · by_cases hq : q = p
    · subst hq
      have hold := h.before q
      rw [hp, List.pairwise_append] at hold
      rw [hs.here, List.pairwise_append, List.pairwise_append]
      refine ⟨?_, ⟨?_, ?_, fun a ha b hb hw => ?_⟩, fun a ha b hb hw => ?_⟩
      · exact hold.1.imp_of_mem fun ha _ hab hw => hab (hrest (hLF _ ha) hw).1
      · exact (h.before F).imp_of_mem fun {a b} _ hb hab hw => (howns a b hw).elim hab
          fun hmem => hLF b hmem.2 hb
      · exact hold.2.1.imp_of_mem fun ha _ hab hw => hab (hrest (hRF _ ha) hw).1
      · rcases howns a b hw with hw | ⟨-, hbL⟩
        · exact hRF b hb (hinside ha hw)
        · exact hL b hbL b (List.mem_append_right _ hb) rfl
      · obtain ⟨hw, hbF⟩ := hrest (hLF a ha) hw
        exact hold.2.2 a ha b ((List.mem_append.mp hb).resolve_left hbF) hw
    · rw [hs.elsewhere q hq, List.pairwise_filter]
      exact (h.before q).imp fun {a b} hab ha _ hw => hab (hrest (by simpa using ha) hw).1

theorem Moved.children_eq (h : Moved c p d d') (hd : d.WellFormed) (hd' : d'.WellFormed) (hq : q ≠ p) :
    d'.children q = (d.children q).filter (· ≠ c) := by
  by_cases hlive : d.Live q
  · obtain ⟨-, A, B, -, -, h⟩ := h
    obtain ⟨s, hs⟩ := hlive
    rw [(h.holds_of hs).children_eq, hs.children_eq]
    exact if_neg hq
  · rw [hd.children_of_not_live hlive, hd'.children_of_not_live (h.live_iff.not.mpr hlive)]
    rfl

theorem WellFormed.children_appendChild (hd : d.WellFormed) (hc : d.Live c) (hp : d.Live p) (hcp : c ≠ p) :
    (d.appendChild p c).children p = (d.children p).filter (· ≠ c) ++ [c] := by
  obtain ⟨s, hs⟩ := hp
  have h0 := hd.detach c
  have h1 := rewrites_update (f := fun s => { s with parent := some p }) (fun _ => rfl)
    (h0.live_iff.mpr hc)
  have h2 := rewrites_update (f := fun s => { s with children := s.children ++ [c] }) (fun _ => rfl)
    (h1.live_iff.mpr (h0.live_iff.mpr hs.live))
  unfold Document.appendChild
  rw [if_pos (by simp [hc.contains, hs.live.contains]),
    (h2.holds_of (h1.holds_of (h0.holds_of hs))).children_eq, hs.children_eq]
  simp [unlinked, hcp.symm]

/-- A node goes right after another one among the children of that one's parent, wherever it stood
before. -/
theorem WellFormed.children_insertAfter_of_filter (hd : d.WellFormed) (hc : d.Live c) (hy : d.Under y p)
    (hyc : y ≠ c) (hcp : c ≠ p) (hp : (d.children p).filter (· ≠ c) = L ++ y :: R) :
    (d.insertAfter y c).2.children p = L ++ y :: c :: R := by
  obtain ⟨s, hs⟩ := hd.closed_live.parent hy.live hy
  obtain ⟨sy, hsy, hto⟩ := id hy
  have hnd := (hd.distinct hs).filter (· ≠ c)
  rw [hs.children_eq] at hp
  rw [hp, List.nodup_append] at hnd
  have hyL : y ∉ L := fun hmem => hnd.2.2 y hmem y List.mem_cons_self rfl
  have h0 := hd.detach c
  have hposition : (d.detach c).position? y = some L.length := by
    have hparent := (h0.holds_of hsy).parent?_eq
    simp only [unlinked, if_neg hyc, hto] at hparent
    unfold position?
    simp only [hparent, Option.bind_eq_bind, Option.bind_some, (h0.holds_of hs).children_eq, unlinked, hp]
    exact findIdx?_append_cons hyL
  have h1 := rewrites_update (f := fun s => { s with parent := some p }) (fun _ => rfl)
    (h0.live_iff.mpr hc)
  have h2 := rewrites_update
    (f := fun s => { s with children := s.children.insertIdx (L.length + 1) c }) (fun _ => rfl)
    (h1.live_iff.mpr (h0.live_iff.mpr hs.live))
  unfold Document.insertAfter
  rw [if_neg (by simp [hyc, hc.contains]), hd.parent?_eq_some_iff.mpr hy]
  simp only [hposition, Option.map_some, Option.getD_some]
  rw [(h2.holds_of (h1.holds_of (h0.holds_of hs))).children_eq]
  simp only [if_pos, if_neg hcp.symm, unlinked, hp]
  exact insertIdx_append_cons

theorem WellFormed.children_insertAfter (hd : d.WellFormed) (hc : d.Under c F) (hy : d.Under y p)
    (hFp : F ≠ p) (hcp : c ≠ p) (hp : d.children p = L ++ y :: R) :
    (d.insertAfter y c).2.children p = L ++ y :: c :: R := by
  have hyc : y ≠ c := by
    rintro rfl
    exact hFp (hc.unique hy)
  refine hd.children_insertAfter_of_filter hc.live hy hyc hcp ?_
  rw [← hp]
  refine List.filter_eq_self.mpr fun x hx => decide_eq_true ?_
  rintro rfl
  exact hFp (hc.unique (hd.mem_children.mp hx))

theorem Spliced.nil (hp : d.children p = L ++ R) : Spliced [] L R p d d :=
  ⟨hp, fun q _ => by simp⟩

/-- One node more goes before the nodes that went after it. -/
theorem Spliced.cons (hd : d.WellFormed) (hd' : d'.WellFormed) (h : Moved c p d d')
    (h' : Spliced cs (L ++ [c]) R p d' d'') : Spliced (c :: cs) L R p d d'' where
  here := by rw [h'.here]; simp
  elsewhere q hq := by
    rw [h'.elsewhere q hq, h.children_eq hd hd' hq, List.filter_filter]
    congr 1
    funext x
    simp [Bool.and_comm]

/-- A node without an owner gets one, and nothing else changes. -/
theorem WellFormed.own_spec (hd : d.WellFormed) (hc : d.Live c) (m : NodeId) {d0 : Document}
    (hd0 : d0 = if (d.owner? c).isNone then d.setOwner c (some m) else d) : d0.WellFormed ∧
      d0.Under = d.Under ∧ (∀ q, d0.children q = d.children q) ∧
        ∀ x w, d0.Owns w x → d.Owns w x ∨ x = c ∧ w = m := by
  obtain ⟨hmoves, hunder⟩ := hd.own hc m
  rw [← hd0] at hmoves hunder
  have hwell := hmoves.steady.wellFormed
  refine ⟨hwell, hunder, ?_⟩
  split at hd0
  · have h := rewrites_update (f := fun s => { s with owner := some m }) (fun _ => rfl) hc
    rw [hd0, setOwner] at hwell ⊢
    refine ⟨fun q => h.children_eq hd hwell fun x s _ => ?_, fun x w hw => ?_⟩
    · split_ifs <;> rfl
    · obtain ⟨t, ht, hw⟩ := hw
      obtain ⟨s, hs, rfl⟩ := (h.holds x t).mp ht
      split_ifs at hw with hx
      · exact .inr ⟨hx, (Option.some.inj hw).symm⟩
      · exact .inl ⟨s, hs, hw⟩
  · rw [hd0]
    exact ⟨fun _ => rfl, fun x w hw => .inl hw⟩

/-- Nodes go after a child of another node, and are owned by `m` if they had no owner. -/
theorem WellFormed.spliced_insertOwnedAfter : ∀ {cs : List NodeId} {d : Document} {y : NodeId}
    {L : List NodeId}, d.WellFormed → cs.Nodup → (∀ c ∈ cs, d.Under c F ∧ d.Placeable c p) → F ≠ p →
      y ∉ F :: cs → d.children p = L ++ y :: R →
        Spliced cs (L ++ [y]) R p d (Document.insertOwnedAfter m d y cs) ∧
          ∀ x w, (Document.insertOwnedAfter m d y cs).Owns w x → d.Owns w x ∨ x ∈ cs ∧ w = m
  | [], d, y, L, hd, _, _, _, _, hp => ⟨.nil (by rw [hp]; simp), fun x w hw => .inl hw⟩
  | c :: cs, d, y, L, hd, hnd, hcs, hFp, hy, hp => by
    rw [List.nodup_cons] at hnd
    rw [Document.insertOwnedAfter]
    obtain ⟨hc, hcp⟩ := hcs c List.mem_cons_self
    obtain ⟨d0, hd0⟩ : ∃ d0, d0 = if (d.owner? c).isNone then d.setOwner c (some m) else d := ⟨_, rfl⟩
    obtain ⟨hwell, hunder, hchildren, howns⟩ := hd.own_spec hc.live m hd0
    rw [← hd0]
    have hplace : ∀ {c}, d.Placeable c p → d0.Placeable c p := fun h => by
      rwa [Placeable, hunder]
    rw [← hunder] at hc
    have hyp : d0.Under y p := by
      rw [← hwell.mem_children, hchildren, hp]
      exact List.mem_append_right L List.mem_cons_self
    have hmoved := hwell.insertAfter hc.live hyp (fun h => hy (by simp [h])) hcp.ne
    have hwell1 := (hmoved.moves hwell hc.live (hplace hcp)).steady.wellFormed
    have hp1 := hwell.children_insertAfter hc hyp hFp hcp.ne
      ((hchildren p).trans hp)
    have hrest := WellFormed.spliced_insertOwnedAfter (L := L ++ [y]) hwell1 hnd.2
      (fun b hb => ?_) hFp (y := c) ?_ (by rw [hp1]; simp)
    · obtain ⟨hs, ho⟩ := hrest
      have hs0 := Spliced.cons hwell hwell1 hmoved hs
      refine ⟨⟨hs0.here, fun q hq => by rw [hs0.elsewhere q hq, hchildren]⟩, fun x w hw => ?_⟩
      rcases ho x w hw with hw | ⟨hx, rfl⟩
      · rcases howns x w (hmoved.owns_iff.mp hw) with hw | ⟨rfl, rfl⟩
        · exact .inl hw
        · exact .inr ⟨List.mem_cons_self, rfl⟩
      · exact .inr ⟨List.mem_cons_of_mem c hx, rfl⟩
    · obtain ⟨hb', hbp⟩ := hcs b (List.mem_cons_of_mem c hb)
      rw [← hunder] at hb'
      refine ⟨(hmoved.under_iff hc.live).mpr (.inr ⟨fun h => hnd.1 (h ▸ hb), hb'⟩), ?_⟩
      exact hmoved.placeable hc.live (hplace hcp) (hplace hbp)
    · rw [List.mem_cons, not_or]
      exact ⟨fun h => hwell.acyclic c (.single (h ▸ hc)), hnd.1⟩

/-- Nodes go to the end of the children of a node. -/
theorem WellFormed.spliced_appendAll : ∀ {cs : List NodeId} {d : Document} {L : List NodeId},
    d.WellFormed → cs.Nodup → d.Live p → (∀ c ∈ cs, d.Live c ∧ d.Placeable c p) →
      d.children p = L → (∀ c ∈ cs, c ∉ L) →
        Spliced cs L [] p d (cs.foldl (fun d c => d.appendChild p c) d) ∧
          ∀ x w, (cs.foldl (fun d c => d.appendChild p c) d).Owns w x ↔ d.Owns w x
  | [], d, L, _, _, _, _, hp, _ => ⟨.nil (by rw [hp, List.append_nil]), fun _ _ => .rfl⟩
  | c :: cs, d, L, hd, hnd, hlive, hcs, hp, hL => by
    rw [List.nodup_cons] at hnd
    obtain ⟨hc, hcp⟩ := hcs c List.mem_cons_self
    have hmoved := hd.appendChild hc hlive hcp.ne
    have hd1 := (hmoved.moves hd hc hcp).steady.wellFormed
    have hp1 := hd.children_appendChild hc hlive hcp.ne
    have hcL : L.filter (· ≠ c) = L := List.filter_eq_self.mpr fun x hx =>
      decide_eq_true fun h => hL c List.mem_cons_self (h ▸ hx)
    rw [hp, hcL] at hp1
    have hrest := WellFormed.spliced_appendAll hd1 hnd.2 (hmoved.live_iff.mpr hlive) (fun b hb => ?_) hp1
      fun b hb => ?_
    · exact ⟨.cons hd hd1 hmoved hrest.1, fun x w => (hrest.2 x w).trans hmoved.owns_iff⟩
    · obtain ⟨hb', hbp⟩ := hcs b (List.mem_cons_of_mem c hb)
      exact ⟨hmoved.live_iff.mpr hb', hmoved.placeable hc hcp hbp⟩
    · simp only [List.mem_append, List.mem_singleton, not_or]
      exact ⟨hL b (List.mem_cons_of_mem c hb), fun h => hnd.1 (h ▸ hb)⟩

theorem OwnersPrecede.releaseFragment (h : d.OwnersPrecede) (hd : d.WellFormed) (hF : d.Live F)
    (htop : ∀ q, ¬ d.Under F q) : (d.releaseFragment F).OwnersPrecede := by
  have hd' := (hd.steady_releaseFragment fun _ => hF).1.wellFormed
  by_cases hempty : (d.data F = .fragment && d.children F = []) = true
  · rw [Document.releaseFragment, if_pos hempty] at hd' ⊢
    rcases hd.remove_cases fun _ => hF with hself | ⟨-, hpruned⟩
    · rwa [hself]
    · refine h.pruned_below hd hd' hpruned fun c hc x hw => ?_
      obtain rfl := List.mem_singleton.mp hc
      obtain ⟨q, -, hq⟩ := h.beside hw
      exact absurd hq (htop q)
  · rwa [Document.releaseFragment, if_neg hempty]

/-- A node that stood nowhere has not been put anywhere. -/
theorem Spliced.not_under (h : Spliced (d.children F) L R p d d') (hd : d.WellFormed)
    (hd' : d'.WellFormed) (hp : d.children p = L ++ R) (htop : ∀ q, ¬ d.Under F q) :
    ∀ q, ¬ d'.Under F q := by
  have hnot : ∀ q, F ∉ d.children q := fun q hq => htop q (hd.mem_children.mp hq)
  intro q hq
  have hmem := hd'.mem_children.mpr hq
  by_cases hqp : q = p
  · subst hqp
    have hnotp := hnot q
    rw [hp] at hnotp
    rw [h.here] at hmem
    simp only [List.mem_append] at hmem hnotp
    rcases hmem with hmem | hmem | hmem
    exacts [hnotp (.inl hmem), hnot F hmem, hnotp (.inr hmem)]
  · rw [h.elsewhere q hqp] at hmem
    exact hnot q (List.mem_of_mem_filter hmem)

/-- A node stays when its children go elsewhere. -/
theorem Moves.live_of_children (h : Moves (d.children F) d d') (hd : d.WellFormed) (hF : d.Live F) :
    d'.Live F := by
  refine (h.keeps {F} fun c hc hcF => ?_).live rfl hF
  obtain rfl : c = F := hcF
  exact hd.acyclic c (.single (hd.mem_children.mp hc))

section

variable (h : Aside F d d') (hd : d.WellFormed) (hprec : d'.OwnersPrecede)
include h hd hprec

/-- Content that was made aside goes after a marker, which owns it from then on. -/
theorem Aside.ownersPrecede_insertOwned (hm : d.Under m p) : (d'.insertOwned m F).2.OwnersPrecede := by
  have hp := hd.closed_live.parent hm.live hm
  have hm' := (h.keeps.under_iff hd.closed_live hm.live).mpr hm
  have hFp : F ≠ p := fun heq => h.new (heq ▸ hp)
  have hmF : m ∉ F :: d'.children F := by
    rw [List.mem_cons, not_or]
    exact ⟨fun heq => h.new (heq ▸ hm.live), fun hmem =>
      hFp ((h.wellFormed.mem_children.mp hmem).unique hm')⟩
  have hplace := h.placeable hd hp
  obtain ⟨L, R, hLR⟩ := List.append_of_mem (h.wellFormed.mem_children.mpr hm')
  obtain ⟨hs, howns⟩ := h.wellFormed.spliced_insertOwnedAfter (m := m) (h.wellFormed.nodup_children F)
    (fun c hc => ⟨h.wellFormed.mem_children.mp hc, (hplace c hc).2⟩) hFp hmF hLR
  have hd1 := (h.wellFormed.insertOwnedAfter (m := m) (h.wellFormed.nodup_children F)
    (fun c hc => h.wellFormed.mem_children.mp hc) fun q hq c hc => hq.unique hm' ▸ (hplace c hc).2)
  have hLR : d'.children p = (L ++ [m]) ++ R := by rw [hLR]; simp
  have hprec1 := hprec.spliced h.wellFormed hd1.steady.wellFormed hs hLR fun x w hw => by
    refine (howns x w hw).imp_right fun hx => ⟨hx.1, ?_⟩
    rw [hx.2]
    exact List.mem_append_right L (List.mem_singleton_self m)
  exact hprec1.releaseFragment hd1.steady.wellFormed
    (hd1.live_of_children h.wellFormed h.live)
    (hs.not_under h.wellFormed hd1.steady.wellFormed hLR fun _ => h.not_under)

/-- Content that was made aside goes to the end of a node's children. -/
theorem Aside.ownersPrecede_appendFragment (hp : d.Live p) : (d'.appendFragment p F).OwnersPrecede := by
  have hp' := h.keeps.live hp hp
  have hplace := h.placeable hd hp
  have hnot : ∀ c ∈ d'.children F, c ∉ d'.children p := fun c hc hmem => by
    have hFp := (h.wellFormed.mem_children.mp hc).unique (h.wellFormed.mem_children.mp hmem)
    exact h.new (hFp ▸ hp)
  obtain ⟨hs, howns⟩ := h.wellFormed.spliced_appendAll (h.wellFormed.nodup_children F) hp' hplace rfl hnot
  have hd1 := h.wellFormed.appendAll hp'.issued hplace
  have hprec1 := hprec.spliced h.wellFormed hd1.steady.wellFormed hs (List.append_nil _).symm
    fun x w hw => .inl ((howns x w).mp hw)
  exact hprec1.releaseFragment hd1.steady.wellFormed
    (hd1.live_of_children h.wellFormed h.live)
    (hs.not_under h.wellFormed hd1.steady.wellFormed (List.append_nil _).symm fun _ => h.not_under)

end

end LiveMarkup.Document
