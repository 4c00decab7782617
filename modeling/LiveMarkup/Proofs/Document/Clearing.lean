import LiveMarkup.Proofs.Document.Placing

/-!
# Clearing undoes inserting

A marker is cleared in one scan of the siblings after it.  Which of them go can be told from the
document as it was before (`ownedAmong`): those that are owned by the marker, or by one that goes
before them (`WellFormed.clearOwned_spec`).  So what was put after a marker is taken out again, and
nothing else, if the marker owned nothing before and no node of the new content owns anything outside
of it (`clearOwned_insertOwned`).
-/

namespace LiveMarkup.Document

open Relation Operation

variable {d d' : Document} {x y c m p q w F : NodeId} {cs L R owners : List NodeId} {s : Slot}

/-! ## What is cleared -/

/-- Of siblings in order, those that are owned by some nodes or by siblings before them that are owned
themselves. -/
def ownedAmong (d : Document) (owners : List NodeId) : List NodeId → List NodeId
  | [] => []
  | c :: cs =>
    if (d.owner? c).any (· ∈ owners) then c :: d.ownedAmong (c :: owners) cs
    else d.ownedAmong owners cs

/-- The siblings after a marker that belong to its content. -/
def ownedSiblings (d : Document) (m : NodeId) : List NodeId :=
  d.ownedAmong [m] (d.followingSiblings m)

theorem exists_owner_of_mem_ownedAmong (h : c ∈ d.ownedAmong owners cs) :
    ∃ w, d.owner? c = some w ∧ (w ∈ owners ∨ w ∈ d.ownedAmong owners cs) := by
  induction cs generalizing owners with
  | nil => cases h
  | cons b cs ih =>
    rw [ownedAmong] at h ⊢
    split_ifs at h ⊢ with howned
    · rcases List.mem_cons.mp h with rfl | h
      · obtain ⟨w, hw, hmem⟩ := (Option.any_eq_true _ _).mp howned
        exact ⟨w, hw, .inl (of_decide_eq_true hmem)⟩
      · obtain ⟨w, hw, hmem⟩ := ih h
        refine ⟨w, hw, ?_⟩
        rw [List.mem_cons] at hmem ⊢
        tauto
    · exact ih h

theorem mem_ownedAmong (hc : c ∈ cs) (hw : d.owner? c = some w) (hmem : w ∈ owners) :
    c ∈ d.ownedAmong owners cs := by
  induction cs generalizing owners with
  | nil => cases hc
  | cons b cs ih =>
    rw [ownedAmong]
    rcases List.mem_cons.mp hc with rfl | hc
    · rw [if_pos (by simpa [hw] using hmem)]
      exact List.mem_cons_self
    · split
      · exact List.mem_cons_of_mem b (ih hc (List.mem_cons_of_mem b hmem))
      · exact ih hc hmem

/-- Only the owners of the siblings count. -/
theorem ownedAmong_congr (h : ∀ c ∈ cs, d'.owner? c = d.owner? c) :
    d'.ownedAmong owners cs = d.ownedAmong owners cs := by
  induction cs generalizing owners with
  | nil => rfl
  | cons c cs ih =>
    have ih : ∀ owners, d'.ownedAmong owners cs = d.ownedAmong owners cs := fun _ =>
      ih fun b hb => h b (List.mem_cons_of_mem c hb)
    rw [ownedAmong, ownedAmong, h c List.mem_cons_self, ih, ih]

theorem Pruned.owner?_eq {S : Set NodeId} (h : Pruned S d d') (hx : x ∉ S) (hlive : d.Live x) :
    d'.owner? x = d.owner? x := by
  obtain ⟨s, hs⟩ := hlive
  rw [((h.holds x _).mpr ⟨hx, s, hs, rfl⟩).owner?_eq, hs.owner?_eq]
  rfl

/-- What stands below some nodes, once what stands below others is removed. -/
theorem Pruned.below_union {S : Set NodeId} (h : Pruned S d d') (hS : ∀ x p, d.Among x p → p ∈ S → x ∈ S) :
    S ∪ d'.below cs = S ∪ d.below cs := by
  ext x
  refine or_congr_right' fun hx => exists_congr fun c => and_congr_right fun _ => ?_
  constructor
  · exact ReflTransGen.mono (fun _ _ hab => (h.among_iff.mp hab).2.2) _ _
  · intro hxc
    induction hxc using ReflTransGen.head_induction_on with
    | refl => exact .refl
    | head hab _ ih =>
      have hb := fun hb => hx (hS _ _ hab hb)
      exact .head (h.among_iff.mpr ⟨hx, hb, hab⟩) (ih hb)

/-- Of siblings just those are removed that are owned, with what stands below them. -/
theorem WellFormed.clearAmong_spec : ∀ {cs owners : List NodeId} {d : Document}, d.WellFormed →
    cs.Nodup → (∀ c ∈ cs, d.Under c p) →
      (d.clearAmong owners cs).1 = (d.ownedAmong owners cs).length ∧
        Pruned (d.below (d.ownedAmong owners cs)) d (d.clearAmong owners cs).2
  | [], owners, d, _, _, _ => by
    have hempty : d.below [] = ∅ := by
      ext x
      simp [below]
    refine ⟨rfl, ?_⟩
    rw [ownedAmong, hempty]
    exact .refl d
  | c :: cs, owners, d, hd, hnd, hcs => by
    rw [List.nodup_cons] at hnd
    have hc := hcs c List.mem_cons_self
    have hcs' := fun b hb => hcs b (List.mem_cons_of_mem c hb)
    rw [Document.clearAmong, ownedAmong]
    split
    · have h := hd.remove hc.live (hc.ne_root hd)
      have hd' := (h.steady hd (by simpa using (hc.ne_root hd).symm)).wellFormed
      have hbeside : ∀ b ∈ cs, b ∉ d.below [c] := fun b hb =>
        hd.not_mem_below_sibling (hcs' b hb) hc fun hbc => hnd.1 (hbc ▸ hb)
      have hsame : (d.remove c).ownedAmong (c :: owners) cs = d.ownedAmong (c :: owners) cs :=
        ownedAmong_congr fun b hb => h.owner?_eq (hbeside b hb) (hcs' b hb).live
      obtain ⟨hcount, hpruned⟩ := (hd'.clearAmong_spec hnd.2
        fun b hb => h.under_iff.mpr ⟨hbeside b hb, hcs' b hb⟩ :
          ((d.remove c).clearAmong (c :: owners) cs).1 = _ ∧ _)
      rw [hsame] at hcount hpruned
      refine ⟨by simp [hcount], ?_⟩
      have hunion : d.below (c :: d.ownedAmong (c :: owners) cs) =
          d.below [c] ∪ (d.remove c).below (d.ownedAmong (c :: owners) cs) := by
        rw [h.below_union fun x p hxp hp => below_of_among hxp hp]
        ext x
        exact mem_below_cons
      rw [hunion]
      exact h.trans hpruned
    · exact hd.clearAmong_spec hnd.2 hcs'

/-- Clearing a marker removes just its content. -/
theorem WellFormed.clearOwned_spec (hd : d.WellFormed) (m : NodeId) :
    (d.clearOwned m).1 = (d.ownedSiblings m).length ∧
      Pruned (d.below (d.ownedSiblings m)) d (d.clearOwned m).2 := by
  obtain ⟨p, hp⟩ : ∃ p, ∀ c ∈ d.followingSiblings m, d.Under c p := by
    by_cases hm : ∃ p, d.Under m p
    · obtain ⟨p, hm⟩ := hm
      refine ⟨p, fun c hc => ?_⟩
      obtain ⟨-, q, hmq, hcq⟩ := hd.mem_followingSiblings hc
      rwa [hm.unique hmq]
    · refine ⟨m, fun c hc => ?_⟩
      obtain ⟨-, q, hmq, -⟩ := hd.mem_followingSiblings hc
      exact absurd ⟨q, hmq⟩ hm
  exact hd.clearAmong_spec (hd.nodup_followingSiblings m) hp

theorem ownedAmong_append {a b : List NodeId} : d.ownedAmong owners (a ++ b) =
    d.ownedAmong owners a ++ d.ownedAmong ((d.ownedAmong owners a).reverse ++ owners) b := by
  induction a generalizing owners with
  | nil => rfl
  | cons c a ih =>
    rw [List.cons_append, ownedAmong, ownedAmong]
    split
    · simp [ih]
    · exact ih

theorem ownedAmong_eq_self (h : ∀ L c R, cs = L ++ c :: R → ∃ w, d.owner? c = some w ∧ w ∈ L ++ owners) :
    d.ownedAmong owners cs = cs := by
  induction cs generalizing owners with
  | nil => rfl
  | cons c cs ih =>
    obtain ⟨w, hw, hmem⟩ := h [] c cs rfl
    rw [ownedAmong, if_pos (by simpa [hw] using hmem), ih]
    rintro L b R rfl
    obtain ⟨w, hw, hmem⟩ := h (c :: L) b R rfl
    exact ⟨w, hw, by simpa [or_left_comm] using hmem⟩

theorem ownedAmong_eq_nil (h : ∀ c ∈ cs, ∀ w, d.owner? c = some w → w ∉ owners) :
    d.ownedAmong owners cs = [] := by
  induction cs with
  | nil => rfl
  | cons c cs ih =>
    rw [ownedAmong, if_neg, ih fun b hb => h b (List.mem_cons_of_mem c hb)]
    rcases hc : d.owner? c with _ | w
    · simp
    · simpa using h c List.mem_cons_self w hc

theorem WellFormed.followingSiblings_of_children (hd : d.WellFormed) (hp : d.children p = L ++ m :: R) :
    d.followingSiblings m = R := by
  have hm : d.Under m p := hd.mem_children.mp (by simp [hp])
  have hL : m ∉ L := by
    have hnd := hd.nodup_children p
    rw [hp, List.nodup_append] at hnd
    exact fun hmem => hnd.2.2 m hmem m List.mem_cons_self rfl
  unfold followingSiblings position?
  simp only [hd.parent?_eq_some_iff.mpr hm, Option.bind_eq_bind, Option.bind_some, hp,
    findIdx?_append_cons hL]
  rw [List.append_cons, List.drop_left' (by simp)]

/-! ## What is put in -/

section
open scoped Classical

/-- The children of a node were put after a marker, the child of `p` between `L` and `R`, and the node
that they came from is gone. -/
structure Inserted (m F p : NodeId) (L R : List NodeId) (d d' : Document) : Prop extends Tidy d d' where
  wellFormed : d'.WellFormed
  holds : ∀ x t, d'.Holds x t ↔ x ≠ F ∧ ∃ s, d.Holds x s ∧
    t = pruned {F} (placed m p (d.children F) (L ++ m :: (d.children F ++ R)) x s)

/-- The content of a fragment goes after a marker that is not in it. -/
theorem WellFormed.inserted (hd : d.WellFormed) (hp : d.children p = L ++ m :: R) (hF : d.Live F)
    (hdata : d.data F = .fragment) (hroot : F ≠ root) (hm : ¬ ReflTransGen d.Under m F) :
    Inserted m F p L R d (d.insertOwned m F).2 := by
  have hmp : d.Under m p := hd.mem_children.mp (by simp [hp])
  have hpF : ¬ ReflTransGen d.Under p F := fun h => hm (.head hmp h)
  have hunder : ∀ c ∈ d.children F, d.Under c F := fun c hc => hd.mem_children.mp hc
  have hplace : ∀ c ∈ d.children F, d.Placeable c p := fun c hc =>
    ⟨(hunder c hc).ne_root hd, fun h => hpF (h.tail (hunder c hc))⟩
  have hFp : F ≠ p := fun h => hpF (h ▸ .refl)
  have hmF : m ∉ F :: d.children F := by
    rw [List.mem_cons, not_or]
    exact ⟨fun h => hm (h ▸ .refl), fun h => hm (.single (hunder m h))⟩
  have h := hd.rewrites_insertOwnedAfter (m := m) (hd.nodup_children F)
    (fun c hc => ⟨hunder c hc, hplace c hc⟩) hFp hmF hp
  have hwell := (hd.insertOwnedAfter (m := m) (hd.nodup_children F) hunder fun q hq =>
    hq.unique hmp ▸ hplace).steady.wellFormed
  obtain ⟨s, hs⟩ := hF
  have hplaced := h.holds_of hs
  have hchildren : s.children = d.children F := hs.children_eq.symm
  have hempty : (Document.insertOwnedAfter m d m (d.children F)).children F = [] := by
    rw [hplaced.children_eq]
    simp [placed, hFp, hchildren]
  have hpruned := hwell.pruned_releaseFragment hplaced.live hroot
    (by rw [hplaced.data_eq, ← hdata, hs.data_eq]; rfl) hempty
  rw [Document.insertOwned]
  refine ⟨h.toTidy.trans hpruned.toTidy, ?_, fun x t => ?_⟩
  · exact (hwell.steady_releaseFragment fun _ => hplaced.live).1.wellFormed
  · rw [hpruned.holds]
    refine and_congr Iff.rfl ?_
    constructor
    · rintro ⟨s', hs', rfl⟩
      obtain ⟨s, hs, rfl⟩ := (h.holds x s').mp hs'
      exact ⟨s, hs, rfl⟩
    · rintro ⟨s, hs, rfl⟩
      exact ⟨_, h.holds_of hs, rfl⟩

namespace Inserted

variable (h : Inserted m F p L R d d')
include h

theorem under_iff (hd : d.WellFormed) : d'.Under x q ↔
    x ≠ F ∧ (x ∈ d.children F ∧ q = p ∨ x ∉ d.children F ∧ d.Under x q) := by
  constructor
  · rintro ⟨t, ht, hq⟩
    obtain ⟨hx, s, hs, rfl⟩ := (h.holds x t).mp ht
    refine ⟨hx, ?_⟩
    by_cases hmem : x ∈ d.children F
    · exact .inl ⟨hmem, by simpa [pruned, placed, hmem, eq_comm] using hq⟩
    · exact .inr ⟨hmem, s, hs, by simpa [pruned, placed, hmem] using hq⟩
  · rintro ⟨hx, ⟨hmem, rfl⟩ | ⟨hmem, s, hs, hq⟩⟩
    · obtain ⟨s, hs, -⟩ := hd.mem_children.mp hmem
      exact ⟨_, (h.holds x _).mpr ⟨hx, s, hs, rfl⟩, by simp [pruned, placed, hmem]⟩
    · exact ⟨_, (h.holds x _).mpr ⟨hx, s, hs, rfl⟩, by simp [pruned, placed, hmem, hq]⟩

theorem owner?_eq (hlive : d.Live x) (hx : x ≠ F) : d'.owner? x =
    if x ∈ d.children F then (d.owner? x).or (some m) else d.owner? x := by
  obtain ⟨s, hs⟩ := hlive
  rw [((h.holds x _).mpr ⟨hx, s, hs, rfl⟩).owner?_eq, hs.owner?_eq]
  rfl

theorem children_eq (hp : d.Live p) (hpF : p ≠ F) :
    d'.children p = (L ++ m :: (d.children F ++ R)).filter (· ≠ F) := by
  obtain ⟨s, hs⟩ := hp
  rw [((h.holds p _).mpr ⟨hpF, s, hs, rfl⟩).children_eq]
  simp [pruned, placed]

/-- What stood below the fragment stands below what was put in. -/
theorem below_iff (hd : d.WellFormed) (hpF : ¬ ReflTransGen d.Under p F) :
    x ∈ d.below [F] ↔ x = F ∨ x ∈ d'.below (d.children F) := by
  have hamong : ∀ {x q}, d'.Among x q ↔ d'.Under x q := h.wellFormed.among_iff
  have hnot : ∀ {y}, y ∈ d'.below (d.children F) → y ≠ F := by
    rintro y ⟨c, hc, hyc⟩ rfl
    rcases hyc.cases_head with rfl | ⟨z, hyz, -⟩
    · exact hd.acyclic y (.single (hd.mem_children.mp hc))
    · exact ((h.under_iff hd).mp (hamong.mp hyz)).1 rfl
  constructor
  · rintro ⟨a, ha, hxa⟩
    obtain rfl := List.mem_singleton.mp ha
    induction hxa using ReflTransGen.head_induction_on with
    | refl => exact .inl rfl
    | head hxy hya ih =>
      have hxy := hd.among_iff.mp hxy
      refine .inr ?_
      rcases ih with rfl | hy
      · exact ⟨_, hd.mem_children.mpr hxy, .refl⟩
      · obtain ⟨c, hc, hyc⟩ := id hy
        refine ⟨c, hc, .head (hamong.mpr ((h.under_iff hd).mpr ⟨?_, .inr ⟨fun hmem => ?_, hxy⟩⟩)) hyc⟩
        · rintro rfl
          exact hd.not_below hxy (hd.under_of_below hya)
        · exact hnot hy (hxy.unique (hd.mem_children.mp hmem))
  · rintro (rfl | ⟨c, hc, hxc⟩)
    · exact ⟨x, List.mem_singleton_self x, .refl⟩
    · induction hxc using ReflTransGen.head_induction_on with
      | refl => exact ⟨F, List.mem_singleton_self F, .single (hd.mem_children_iff.mp hc)⟩
      | head hxy _ ih =>
        obtain ⟨-, ⟨-, rfl⟩ | ⟨-, hxy⟩⟩ := (h.under_iff hd).mp (hamong.mp hxy)
        · obtain ⟨a, ha, hpa⟩ := ih
          obtain rfl := List.mem_singleton.mp ha
          exact absurd (hd.under_of_below hpa) hpF
        · exact below_of_among (hd.among_iff.mpr hxy) ih

end Inserted

/-! ## Round trip -/

/-- A fragment with content for a marker: its children have no owner, or one before them in the
fragment, and none of its nodes owns anything outside of it. -/
structure Enclosed (d : Document) (F : NodeId) : Prop where
  live : d.Live F
  data : d.data F = .fragment
  ne_root : F ≠ root
  owned : ∀ L c R, d.children F = L ++ c :: R → ∀ w, d.Owns w c → w ∈ L
  outside : ∀ w ∈ d.below [F], ∀ x, d.Owns w x → x ∈ d.below [F]

theorem Inserted.children_around (h : Inserted m F p L R d d') (hd : d.WellFormed)
    (hp : d.children p = L ++ m :: R) (hmF : ¬ ReflTransGen d.Under m F) :
    d'.children p = L.filter (· ≠ F) ++ m :: (d.children F ++ R.filter (· ≠ F)) := by
  have hm : d.Under m p := hd.mem_children.mp (by simp [hp])
  have hmne : m ≠ F := fun heq => hmF (heq ▸ .refl)
  have hfilter : (d.children F).filter (· ≠ F) = d.children F :=
    List.filter_eq_self.mpr fun c hc => decide_eq_true <| by
      rintro rfl
      exact hd.acyclic c (.single (hd.mem_children.mp hc))
  rw [h.children_eq (hd.closed_live.parent hm.live hm) fun heq => hmF (heq ▸ .single hm),
    List.filter_append, List.filter_cons_of_pos (by simpa using hmne),
    List.filter_append, hfilter]

/-- The content of a marker is what was put after it. -/
theorem Inserted.ownedSiblings_eq (h : Inserted m F p L R d d') (hd : d.WellFormed)
    (hp : d.children p = L ++ m :: R) (hF : d.Enclosed F) (hmF : ¬ ReflTransGen d.Under m F)
    (hR : ∀ x ∈ R, ¬ d.Owns m x) : d'.ownedSiblings m = d.children F := by
  have hne : ∀ {c}, d.Under c F → c ≠ F := fun hc heq => hd.acyclic F (.single (heq ▸ hc))
  have hpF : ¬ ReflTransGen d.Under p F := fun hpF =>
    hmF (.head (hd.mem_children.mp (by simp [hp])) hpF)
  have hall : d'.ownedAmong [m] (d.children F) = d.children F := by
    refine ownedAmong_eq_self fun L' c R' hc => ?_
    have hcF : c ∈ d.children F := by simp [hc]
    have hcu := hd.mem_children.mp hcF
    obtain ⟨s, hs, -⟩ := id hcu
    rw [h.owner?_eq hcu.live (hne hcu), if_pos hcF, hs.owner?_eq]
    rcases hw : s.owner with _ | w
    · exact ⟨m, rfl, by simp⟩
    · exact ⟨w, rfl, List.mem_append_left _ (hF.owned L' c R' hc w ⟨s, hs, hw⟩)⟩
  rw [ownedSiblings, h.wellFormed.followingSiblings_of_children (h.children_around hd hp hmF),
    ownedAmong_append, hall, ownedAmong_eq_nil, List.append_nil]
  intro x hx w hw
  obtain ⟨hx, hxF⟩ : x ∈ R ∧ x ≠ F := by simpa using hx
  have hxp : d.Under x p := hd.mem_children.mp (by simp [hp, hx])
  have hxc : x ∉ d.children F := fun hmem =>
    hpF (hxp.unique (hd.mem_children.mp hmem) ▸ .refl)
  rw [h.owner?_eq hxp.live hxF, if_neg hxc] at hw
  obtain ⟨s, hs, -⟩ := id hxp
  have howns : d.Owns w x := hs.owns_iff.mpr hw
  rw [List.mem_append, List.mem_reverse, List.mem_singleton, not_or]
  refine ⟨fun hmem => ?_, fun heq => hR x hx (heq ▸ howns)⟩
  -- a node of the fragment owns nothing beside the marker
  obtain ⟨a, ha, hxa⟩ := hF.outside w ⟨F, List.mem_singleton_self F,
    .single (hd.mem_children_iff.mp hmem)⟩ x howns
  obtain rfl := List.mem_singleton.mp ha
  rcases (hd.under_of_below hxa).cases_head with heq | ⟨q, hxq, hq⟩
  · exact hxF heq
  · exact hpF (hxp.unique hxq ▸ hq)

/-- Removing what was put in leaves the document without the fragment. -/
theorem Inserted.pruned {d'' : Document} (h : Inserted m F p L R d d') (hd : d.WellFormed)
    (hp : d.children p = L ++ m :: R) (hpF : ¬ ReflTransGen d.Under p F)
    (hpruned : Pruned (d'.below (d.children F)) d' d'') : Pruned (d.below [F]) d d'' := by
  have hunion : {F} ∪ d'.below (d.children F) = d.below [F] := by
    ext x
    exact (h.below_iff hd hpF).symm
  have hin : ∀ c ∈ d.children F, c ∈ d.below [F] := fun c hc => hunion ▸ .inr ⟨c, hc, .refl⟩
  have hslot : ∀ x s, d.Holds x s → x ∉ d.below [F] →
      Document.pruned (d.below [F]) (placed m p (d.children F) (L ++ m :: (d.children F ++ R)) x s) =
        Document.pruned (d.below [F]) s := by
    intro x s hs hx
    have hxc : x ∉ d.children F := fun hmem => hx (hin x hmem)
    simp only [Document.pruned, placed, if_neg hxc]
    congr 1
    split_ifs with hxp
    · have hgone : (d.children F).filter (· ∉ d.below [F]) = [] := by
        simpa [List.filter_eq_nil_iff] using hin
      subst hxp
      rw [← hs.children_eq, hp]
      simp only [List.filter_append, List.filter_cons, hgone, List.nil_append]
    · rw [List.filter_filter]
      refine List.filter_congr fun b _ => ?_
      have : b ∉ d.below [F] → b ∉ d.children F := fun hb hmem => hb (hin b hmem)
      simpa using this
  have hmem : ∀ x, x ∉ d.below [F] ↔ x ≠ F ∧ x ∉ d'.below (d.children F) := fun x => by
    rw [← hunion, Set.mem_union, not_or, Set.mem_singleton_iff]
  refine ⟨h.toTidy.trans hpruned.toTidy, fun x t => ?_⟩
  rw [hpruned.holds]
  constructor
  · rintro ⟨hx, s', hs', rfl⟩
    obtain ⟨hxF, s, hs, rfl⟩ := (h.holds x s').mp hs'
    have hx := (hmem x).mpr ⟨hxF, hx⟩
    exact ⟨hx, s, hs, by rw [pruned_pruned, hunion, hslot x s hs hx]⟩
  · rintro ⟨hx, s, hs, rfl⟩
    obtain ⟨hxF, hx'⟩ := (hmem x).mp hx
    exact ⟨hx', _, (h.holds x _).mpr ⟨hxF, s, hs, rfl⟩, by rw [pruned_pruned, hunion, hslot x s hs hx]⟩

/-- If a node stands nowhere, removing it changes no list of children. -/
theorem Pruned.holds_of_top (h : Pruned (d.below [F]) d d') (hd : d.WellFormed)
    (htop : ∀ q, ¬ d.Under F q) : d'.Holds x s ↔ x ∉ d.below [F] ∧ d.Holds x s := by
  rw [h.holds]
  refine and_congr_right fun hx => ?_
  have hself : ∀ s, d.Holds x s → Document.pruned (d.below [F]) s = s := by
    intro s hs
    have hkeep : s.children.filter (· ∉ d.below [F]) = s.children := by
      refine List.filter_eq_self.mpr fun b hb => decide_eq_true ?_
      rintro ⟨a, ha, hba⟩
      obtain rfl := List.mem_singleton.mp ha
      have hbx : d.Under b x := hd.mem_children.mp (hs.children_eq ▸ hb)
      rcases hba.cases_head with rfl | ⟨q, hbq, hq⟩
      · exact htop x hbx
      · exact hx ⟨a, ha, (hbx.unique (hd.among_iff.mp hbq)) ▸ hq⟩
    rw [Document.pruned, hkeep]
  constructor
  · rintro ⟨s, hs, rfl⟩
    rwa [hself s hs]
  · exact fun hs => ⟨s, hs, (hself s hs).symm⟩

/-- The content of a fragment goes right after a marker that owned nothing, in order, and the fragment
is gone.  Clearing the marker then removes just this content with what stands below it: every other
node keeps what it was, where it was and what owned it, and all lists of children are what they were,
but for the fragment. -/
theorem clearOwned_insertOwned (hd : d.WellFormed) (hm : d.Under m p) (hF : d.Enclosed F)
    (hmF : ¬ ReflTransGen d.Under m F) (hnone : ∀ x ∈ d.followingSiblings m, ¬ d.Owns m x) :
    (∃ L R, (d.children p).filter (· ≠ F) = L ++ m :: R ∧
      (d.insertOwned m F).2.children p = L ++ m :: (d.children F ++ R)) ∧
    ¬ (d.insertOwned m F).2.Live F ∧
    ((d.insertOwned m F).2.clearOwned m).1 = (d.children F).length ∧
    Pruned (d.below [F]) d ((d.insertOwned m F).2.clearOwned m).2 ∧
    ((∀ q, ¬ d.Under F q) →
      ((d.insertOwned m F).2.clearOwned m).2.children p = d.children p ∧
      ∀ x s, ((d.insertOwned m F).2.clearOwned m).2.Holds x s ↔ x ∉ d.below [F] ∧ d.Holds x s) := by
  obtain ⟨L, hp⟩ := hd.followingSiblings_eq hm
  have hpF : ¬ ReflTransGen d.Under p F := fun h => hmF (.head hm h)
  have hmne : m ≠ F := fun heq => hmF (heq ▸ .refl)
  have h := hd.inserted hp hF.live hF.data hF.ne_root hmF
  obtain ⟨hcount, hpruned⟩ := h.wellFormed.clearOwned_spec m
  rw [h.ownedSiblings_eq hd hp hF hmF hnone] at hcount hpruned
  have hwhole := h.pruned hd hp hpF hpruned
  refine ⟨⟨_, _, ?_, h.children_around hd hp hmF⟩, ?_, hcount, hwhole, fun htop => ?_⟩
  · rw [hp, List.filter_append, List.filter_cons_of_pos (by simpa using hmne)]
  · rintro ⟨t, ht⟩
    exact ((h.holds F t).mp ht).1 rfl
  · have hholds := fun x s => hwhole.holds_of_top (x := x) (s := s) hd htop
    refine ⟨?_, hholds⟩
    obtain ⟨s, hs⟩ := hd.closed_live.parent hm.live hm
    have hpmem : p ∉ d.below [F] := by
      rintro ⟨a, ha, hpa⟩
      obtain rfl := List.mem_singleton.mp ha
      exact hpF (hd.under_of_below hpa)
    rw [((hholds p s).mpr ⟨hpmem, hs⟩).children_eq, hs.children_eq]

end

/-- A document with a marker and an element after it, and content for the marker aside, of which the
second node is owned by the first. -/
def beforeInserting : Document :=
  run (parse "<!--m--><b></b>".toList)
    [.createFragment "<i>x</i><!--k-->".toList, .setOwner ⟨6, 0⟩ (some ⟨4, 0⟩)]

theorem clearOwned_insertOwned_nested :
    ((beforeInserting.insertOwned ⟨1, 0⟩ ⟨3, 0⟩).2.toHtml = "<!--m--><i>x</i><!--k--><b></b>".toList) ∧
      ((beforeInserting.insertOwned ⟨1, 0⟩ ⟨3, 0⟩).2.clearOwned ⟨1, 0⟩).1 = 2 ∧
      ((beforeInserting.insertOwned ⟨1, 0⟩ ⟨3, 0⟩).2.clearOwned ⟨1, 0⟩).2.children root =
        beforeInserting.children root := by
  have hlegal : AllLegal (parse "<!--m--><b></b>".toList)
      [.createFragment "<i>x</i><!--k-->".toList, .setOwner ⟨6, 0⟩ (some ⟨4, 0⟩)] :=
    (areLegal_iff (wellFormed_parse _)).mp (by decide +kernel)
  have hd : beforeInserting.WellFormed := (wellFormed_run _ _ hlegal).1
  have hparent : ∀ {x p}, beforeInserting.parent? x = some p ↔ beforeInserting.Under x p :=
    hd.parent?_eq_some_iff
  have hm : beforeInserting.Under ⟨1, 0⟩ root := hparent.mp (by decide +kernel)
  have hi : beforeInserting.Under ⟨4, 0⟩ ⟨3, 0⟩ := hparent.mp (by decide +kernel)
  have hk : beforeInserting.Under ⟨6, 0⟩ ⟨3, 0⟩ := hparent.mp (by decide +kernel)
  have htop : ∀ q, ¬ beforeInserting.Under ⟨3, 0⟩ q := fun q hq => by
    have hnone : beforeInserting.parent? ⟨3, 0⟩ = none := by decide +kernel
    rw [hparent.mpr hq] at hnone
    cases hnone
  -- the second node of the content is the only one with an owner
  have howned : ∀ w x, beforeInserting.Owns w x → x = ⟨6, 0⟩ ∧ w = ⟨4, 0⟩ := by
    rintro w ⟨i, g⟩ ⟨s, hs, hw⟩
    have hall : beforeInserting.slots.toList.map (fun s => (s.generation, s.owner)) =
        [(0, none), (0, none), (0, none), (0, none), (0, none), (0, none), (0, some ⟨4, 0⟩)] := by
      decide +kernel
    have hat := congrArg (·[i]?) hall
    simp only [List.getElem?_map, Array.getElem?_toList, slots_of_used? hs.1, Option.map_some] at hat
    have hg : s.generation = g := hs.2
    clear hs hall
    rw [hw, hg] at hat
    rcases i with _ | _ | _ | _ | _ | _ | _ | i <;> simp at hat
    obtain ⟨rfl, rfl⟩ := hat
    exact ⟨rfl, rfl⟩
  have hF : beforeInserting.Enclosed ⟨3, 0⟩ := by
    refine ⟨(hd.closed_live.parent hk.live hk), by decide +kernel, by decide, ?_, ?_⟩
    · intro L c R hc w hw
      obtain ⟨rfl, rfl⟩ := howned w c hw
      have hchildren : beforeInserting.children ⟨3, 0⟩ = [⟨4, 0⟩, ⟨6, 0⟩] := by decide +kernel
      rw [hchildren] at hc
      rcases L with _ | ⟨a, L⟩
      · exact absurd (List.cons.inj hc).1 (by decide)
      · rw [(List.cons.inj hc).1]
        exact List.mem_cons_self
    · intro w _ x hw
      obtain ⟨rfl, -⟩ := howned w x hw
      exact ⟨_, List.mem_singleton_self _, .single (hd.among_iff.mpr hk)⟩
  have hout : ¬ ReflTransGen beforeInserting.Under ⟨1, 0⟩ ⟨3, 0⟩ := fun h => by
    rcases h.cases_head with heq | ⟨q, hq, h⟩
    · exact absurd heq (by decide)
    · obtain rfl := hq.unique hm
      rcases h.cases_head with heq | ⟨q, hq, -⟩
      · exact absurd heq (by decide)
      · exact hd.not_under_root hq
  obtain ⟨-, -, hcount, -, hback⟩ := clearOwned_insertOwned hd hm hF hout fun x _ hx =>
    absurd (howned _ x hx).2 (by decide)
  refine ⟨by decide +kernel, ?_, (hback htop).1⟩
  rw [hcount]
  decide +kernel

end LiveMarkup.Document
