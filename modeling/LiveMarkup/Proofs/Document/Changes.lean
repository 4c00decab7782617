import Mathlib.Data.Set.Basic
import LiveMarkup.Proofs.Document.WellFormed

/-!
# Changes to well-formed documents

Three kinds of changes keep a document well-formed: writing into nodes what is no link
(`Rewrites.wellFormed`), moving a node to a place that is not below it (`Moved.wellFormed`), and
leaving out nodes with all that stands below them (`Pruned.wellFormed`).  A new node is a fourth
(`WellFormed.create`).
-/

namespace LiveMarkup.Document

open Relation

variable {d d' d'' : Document} {x y c p q : NodeId} {s t : Slot} {f : Slot → Slot}
  {e e' : NodeId → Slot → Slot}

/-! ## Nodes that are kept -/

section

open scoped Classical

/-- The nodes in `A` are kept: what they are, where they are, what owns them, and the order of those
beside each other. -/
def Keeps (A : Set NodeId) (d d' : Document) : Prop :=
  ∀ x ∈ A, ∀ s, d.Holds x s → ∃ s', d'.Holds x s' ∧ s'.data = s.data ∧ s'.parent = s.parent ∧
    s'.owner = s.owner ∧ s'.children.filter (· ∈ A) = s.children.filter (· ∈ A)

/-- The nodes in `A` are live, and the parents of nodes in `A` are in `A`. -/
structure Closed (A : Set NodeId) (d : Document) : Prop where
  live : ∀ x ∈ A, d.Live x
  parent : ∀ {x p : NodeId}, x ∈ A → d.Under x p → p ∈ A

variable {A B : Set NodeId}

theorem keeps_of_holds (h : ∀ x s, d.Holds x s → d'.Holds x s) : Keeps A d d' :=
  fun x _ s hs => ⟨s, h x s hs, rfl, rfl, rfl, rfl⟩

namespace Keeps

theorem refl (A : Set NodeId) (d : Document) : Keeps A d d :=
  keeps_of_holds fun _ _ => id

theorem trans (h : Keeps A d d') (h' : Keeps A d' d'') : Keeps A d d'' := by
  intro x hx s hs
  obtain ⟨s', hs', h1, h2, h3, h4⟩ := h x hx s hs
  obtain ⟨s'', hs'', h1', h2', h3', h4'⟩ := h' x hx s' hs'
  exact ⟨s'', hs'', h1'.trans h1, h2'.trans h2, h3'.trans h3, h4'.trans h4⟩

theorem mono (h : Keeps B d d') (hAB : A ⊆ B) : Keeps A d d' := by
  intro x hx s hs
  obtain ⟨s', hs', h1, h2, h3, h4⟩ := h x (hAB hx) s hs
  refine ⟨s', hs', h1, h2, h3, ?_⟩
  have hsub : ∀ L : List NodeId, L.filter (· ∈ A) = (L.filter (· ∈ B)).filter (· ∈ A) := fun L => by
    rw [List.filter_filter]
    refine List.filter_congr fun y _ => ?_
    have := @hAB y
    grind
  rw [hsub, h4, ← hsub]

theorem live (h : Keeps A d d') (hx : x ∈ A) (hl : d.Live x) : d'.Live x :=
  let ⟨s, hs⟩ := hl
  let ⟨s', hs', _⟩ := h x hx s hs
  ⟨s', hs'⟩

theorem under_iff (h : Keeps A d d') (hA : Closed A d) (hx : x ∈ A) : d'.Under x p ↔ d.Under x p := by
  obtain ⟨s, hs⟩ := hA.live x hx
  obtain ⟨s', hs', -, hparent, -⟩ := h x hx s hs
  rw [hs.under_iff, hs'.under_iff, hparent]

theorem closed (h : Keeps A d d') (hA : Closed A d) : Closed A d' :=
  ⟨fun x hx => h.live hx (hA.live x hx), fun hx hp => hA.parent hx ((h.under_iff hA hx).mp hp)⟩

theorem data_eq (h : Keeps A d d') (hA : Closed A d) (hx : x ∈ A) : d'.data x = d.data x := by
  obtain ⟨s, hs⟩ := hA.live x hx
  obtain ⟨s', hs', hdata, -⟩ := h x hx s hs
  rw [hs.data_eq, hs'.data_eq, hdata]

theorem owner?_eq (h : Keeps A d d') (hA : Closed A d) (hx : x ∈ A) : d'.owner? x = d.owner? x := by
  obtain ⟨s, hs⟩ := hA.live x hx
  obtain ⟨s', hs', -, -, howner, -⟩ := h x hx s hs
  rw [hs.owner?_eq, hs'.owner?_eq, howner]

/-- The nodes in `A` stay in order below a node. -/
theorem children_filter (h : Keeps A d d') (hA : Closed A d) (hx : x ∈ A) :
    (d'.children x).filter (· ∈ A) = (d.children x).filter (· ∈ A) := by
  obtain ⟨s, hs⟩ := hA.live x hx
  obtain ⟨s', hs', -, -, -, hchildren⟩ := h x hx s hs
  rw [hs.children_eq, hs'.children_eq, hchildren]

end Keeps

/-- Above a node in `A` all nodes are in `A`. -/
theorem Closed.above (hA : Closed A d) (hx : x ∈ A) (h : ReflTransGen d.Under x p) : p ∈ A := by
  induction h with
  | refl => exact hx
  | tail _ h ih => exact hA.parent ih h

end

/-! ## Writing into nodes -/

/-- The nodes are the same, and each holds what `e` makes of what it held. -/
structure Rewrites (e : NodeId → Slot → Slot) (d d' : Document) : Prop extends Tidy d d' where
  holds : ∀ x t, d'.Holds x t ↔ ∃ s, d.Holds x s ∧ t = e x s

namespace Rewrites

theorem of_eq_self (h : ∀ x s, d.Holds x s → e x s = s) : Rewrites e d d where
  toTidy := Tidy.refl d
  holds x t := ⟨fun ht => ⟨t, ht, (h x t ht).symm⟩, fun ⟨s, hs, ht⟩ => ht ▸ (h x s hs).symm ▸ hs⟩

theorem trans (h : Rewrites e d d') (h' : Rewrites e' d' d'') :
    Rewrites (fun x s => e' x (e x s)) d d'' where
  toTidy := h.toTidy.trans h'.toTidy
  holds x t := by
    rw [h'.holds]
    constructor
    · rintro ⟨s', hs', rfl⟩
      obtain ⟨s, hs, rfl⟩ := (h.holds x s').mp hs'
      exact ⟨s, hs, rfl⟩
    · rintro ⟨s, hs, rfl⟩
      exact ⟨e x s, (h.holds x _).mpr ⟨s, hs, rfl⟩, rfl⟩

theorem congr (h : Rewrites e d d') (he : ∀ x s, d.Holds x s → e x s = e' x s) :
    Rewrites e' d d' where
  toTidy := h.toTidy
  holds x t := by
    rw [h.holds]
    refine exists_congr fun s => and_congr_right fun hs => ?_
    rw [he x s hs]

theorem holds_of (h : Rewrites e d d') (hs : d.Holds x s) : d'.Holds x (e x s) :=
  (h.holds x _).mpr ⟨s, hs, rfl⟩

end Rewrites

theorem rewrites_update (hf : ∀ s, (f s).generation = s.generation) (h : d.Live c) :
    Rewrites (fun x s => if x = c then f s else s) d (d.update c f) := by
  obtain ⟨s, hs⟩ := h
  have hblank : d.Blank → (d.update c f).Blank := fun hd i hi => by
    rw [free_update] at hi
    have hne : i ≠ c.index := fun h => not_mem_free hs (h ▸ hi)
    rw [slots_update hs, if_neg hne]
    exact hd i hi
  have hfreed : Freed d (d.update c f) := fun i t ht => by
    rw [slots_update hs, free_update]
    by_cases hi : i = c.index
    · subst hi
      obtain rfl := Option.some.inj ((slots_of_used? hs.1).symm.trans ht)
      exact ⟨f s, if_pos rfl, .inl ⟨hf s, .rfl⟩⟩
    · exact ⟨t, by rw [if_neg hi, ht], .inl ⟨rfl, .rfl⟩⟩
  refine ⟨⟨fun hd => hd.update hf hs, hblank, hfreed⟩, fun x t => ?_⟩
  by_cases hx : x = c
  · subst hx
    simp only [if_pos]
    constructor
    · intro ht
      exact ⟨s, hs, ht.unique (hs.update hf)⟩
    · rintro ⟨s', hs', rfl⟩
      exact hs'.update hf
  · simp only [if_neg hx, exists_eq_right']
    constructor
    · rintro ⟨h1, h2⟩
      rw [used?_update hs] at h1
      split at h1
      · rename_i hi
        obtain rfl := Option.some.inj h1
        refine absurd ?_ hx
        obtain ⟨i, g⟩ := x
        obtain ⟨j, k⟩ := c
        obtain rfl : i = j := hi
        obtain rfl : g = k := h2.symm.trans ((hf s).trans hs.2)
        rfl
      · exact ⟨h1, h2⟩
    · intro ht
      exact hs.update_of_ne ht fun hi => hx (ht.eq_of_index_eq hs hi)

theorem Rewrites.live_iff (h : Rewrites e d d') : d'.Live x ↔ d.Live x :=
  ⟨fun ⟨t, ht⟩ => let ⟨s, hs, _⟩ := (h.holds x t).mp ht; ⟨s, hs⟩,
    fun ⟨_, hs⟩ => ⟨_, h.holds_of hs⟩⟩

theorem Rewrites.under_iff (h : Rewrites e d d')
    (hparent : ∀ x s, d.Holds x s → (e x s).parent = s.parent) : d'.Under x p ↔ d.Under x p := by
  constructor
  · rintro ⟨t, ht, hp⟩
    obtain ⟨s, hs, rfl⟩ := (h.holds x t).mp ht
    exact ⟨s, hs, (hparent x s hs).symm.trans hp⟩
  · rintro ⟨s, hs, hp⟩
    exact ⟨_, h.holds_of hs, (hparent x s hs).trans hp⟩

/-- Links are what decides whether a document is well-formed. -/
theorem Rewrites.wellFormed (h : Rewrites e d d') (hd : d.WellFormed)
    (hparent : ∀ x s, d.Holds x s → (e x s).parent = s.parent)
    (hchildren : ∀ x s, d.Holds x s → (e x s).children = s.children) : d'.WellFormed := by
  have hunder : ∀ {x p}, _ := fun {x p} => h.under_iff (x := x) (p := p) hparent
  have hamong : ∀ {x p}, d'.Among x p ↔ d.Among x p := fun {x p} => by
    constructor
    · rintro ⟨t, ht, hx⟩
      obtain ⟨s, hs, rfl⟩ := (h.holds p t).mp ht
      exact ⟨s, hs, hchildren p s hs ▸ hx⟩
    · rintro ⟨s, hs, hx⟩
      exact ⟨_, h.holds_of hs, (hchildren p s hs).symm ▸ hx⟩
  refine ⟨⟨h.sound hd.toSound, h.blank hd.blank, fun hx => hunder.mpr (hd.child (hamong.mp hx)),
    fun {p t} ht => ?_, fun x hx => ?_⟩, fun hx => hamong.mpr (hd.parent (hunder.mp hx)), ?_⟩
  · obtain ⟨s, hs, rfl⟩ := (h.holds p t).mp ht
    exact hchildren p s hs ▸ hd.distinct hs
  · exact hd.acyclic x (TransGen.mono (fun _ _ => hunder.mp) _ _ hx)
  · obtain ⟨s, hs, hnone⟩ := hd.rooted
    exact ⟨_, h.holds_of hs, (hparent root s hs).trans hnone⟩

theorem Rewrites.keeps (h : Rewrites e d d') {A : Set NodeId}
    (he : ∀ x ∈ A, ∀ s, d.Holds x s → e x s = s) : Keeps A d d' := fun x hx s hs =>
  ⟨s, by simpa only [he x hx s hs] using h.holds_of hs, rfl, rfl, rfl, rfl⟩

/-! ## Moving a node -/

/-- What a node holds after another one was moved to a parent with the children `L`. -/
def moved (c p : NodeId) (L : List NodeId) (x : NodeId) (s : Slot) : Slot :=
  { s with
    parent := if x = c then some p else s.parent
    children := if x = p then L else s.children.filter (· ≠ c) }

/-- A node was moved to a place among the children of another one. -/
def Moved (c p : NodeId) (d d' : Document) : Prop :=
  ∃ s A B, d.Holds p s ∧ s.children.filter (· ≠ c) = A ++ B ∧
    Rewrites (moved c p (A ++ c :: B)) d d'

/-- A link more makes no cycle, unless it leads to where it comes from. -/
theorem transGen_link {r r' : NodeId → NodeId → Prop}
    (h : ∀ x y, r' x y → r x y ∨ x = c ∧ y = p) (hxy : TransGen r' x y) :
    TransGen r x y ∨ ReflTransGen r x c ∧ ReflTransGen r p y := by
  induction hxy with
  | single hxy =>
    rcases h _ _ hxy with hxy | ⟨rfl, rfl⟩
    · exact .inl (.single hxy)
    · exact .inr ⟨.refl, .refl⟩
  | tail _ hyz ih =>
    rcases h _ _ hyz with hyz | ⟨rfl, rfl⟩
    · exact ih.imp (·.tail hyz) fun ⟨hc, hp⟩ => ⟨hc, hp.tail hyz⟩
    · rcases ih with ih | ih
      · exact .inr ⟨ih.to_reflTransGen, .refl⟩
      · exact .inr ⟨ih.1, .refl⟩

namespace Moved

theorem under_iff (h : Moved c p d d') (hc : d.Live c) :
    d'.Under x q ↔ x = c ∧ q = p ∨ x ≠ c ∧ d.Under x q := by
  obtain ⟨sp, A, B, hp, hAB, h⟩ := h
  by_cases hx : x = c
  · subst hx
    simp only [ne_eq, not_true_eq_false, false_and, or_false, true_and]
    constructor
    · rintro ⟨t, ht, hq⟩
      obtain ⟨s, hs, rfl⟩ := (h.holds x t).mp ht
      simpa [moved, eq_comm] using hq
    · rintro rfl
      obtain ⟨s, hs⟩ := hc
      exact ⟨_, h.holds_of hs, by simp [moved]⟩
  · simp only [hx, false_and, false_or, ne_eq, not_false_eq_true, true_and]
    constructor
    · rintro ⟨t, ht, hq⟩
      obtain ⟨s, hs, rfl⟩ := (h.holds x t).mp ht
      exact ⟨s, hs, by simpa [moved, hx] using hq⟩
    · rintro ⟨s, hs, hq⟩
      exact ⟨_, h.holds_of hs, by simpa [moved, hx] using hq⟩

theorem among_iff (h : Moved c p d d') :
    d'.Among x q ↔ x = c ∧ q = p ∨ x ≠ c ∧ d.Among x q := by
  obtain ⟨sp, A, B, hp, hAB, h⟩ := h
  have hmem : ∀ {s}, d.Holds p s → (x ∈ A ++ B ↔ x ∈ s.children ∧ x ≠ c) := fun hs => by
    obtain rfl := hs.unique hp
    rw [← hAB, List.mem_filter, decide_eq_true_eq]
  constructor
  · rintro ⟨t, ht, hx⟩
    obtain ⟨s, hs, rfl⟩ := (h.holds q t).mp ht
    by_cases hq : q = p
    · subst hq
      have hx : x = c ∨ x ∈ A ++ B := by simpa [moved, or_left_comm] using hx
      by_cases hxc : x = c
      · exact .inl ⟨hxc, rfl⟩
      · exact .inr ⟨hxc, s, hs, ((hmem hs).mp (hx.resolve_left hxc)).1⟩
    · have hx : x ∈ s.children ∧ x ≠ c := by simpa [moved, hq] using hx
      exact .inr ⟨hx.2, s, hs, hx.1⟩
  · rintro (⟨rfl, rfl⟩ | ⟨hx, s, hs, hmemx⟩)
    · exact ⟨_, h.holds_of hp, by simp [moved]⟩
    · refine ⟨_, h.holds_of hs, ?_⟩
      by_cases hq : q = p
      · subst hq
        have hAB := (hmem hs).mpr ⟨hmemx, hx⟩
        simpa [moved, or_left_comm, hx] using hAB
      · simp [moved, hq, hmemx, hx]

theorem wellFormed (h : Moved c p d d') (hd : d.WellFormed) (hc : d.Live c) (hroot : c ≠ root)
    (hnot : ¬ ReflTransGen d.Under p c) : d'.WellFormed := by
  have hunder : ∀ {x q}, _ := fun {x q} => h.under_iff (x := x) (q := q) hc
  have hamong : ∀ {x q}, _ := fun {x q} => h.among_iff (x := x) (q := q)
  obtain ⟨sp, A, B, hp, hAB, h⟩ := h
  refine ⟨⟨h.sound hd.toSound, h.blank hd.blank, fun hx => ?_, fun {q t} ht => ?_, fun x hx => ?_⟩,
    fun hx => ?_, ?_⟩
  · exact hunder.mpr ((hamong.mp hx).imp_right fun hx => ⟨hx.1, hd.child hx.2⟩)
  · obtain ⟨s, hs, rfl⟩ := (h.holds q t).mp ht
    by_cases hq : q = p
    · subst hq
      have hnd : (A ++ B).Nodup := hAB ▸ (hd.distinct hp).filter _
      have hcAB : c ∉ A ++ B := hAB ▸ fun hc => by simpa using List.of_mem_filter hc
      simp only [moved, if_pos]
      exact List.nodup_middle.mpr (List.nodup_cons.mpr ⟨hcAB, hnd⟩)
    · simpa [moved, hq] using (hd.distinct hs).filter _
  · rcases transGen_link (c := c) (p := p) (r := d.Under)
        (fun x y h => ((hunder.mp h).imp_right And.right).symm) hx with hx | ⟨hxc, hpx⟩
    · exact hd.acyclic x hx
    · exact hnot (hpx.trans hxc)
  · exact hamong.mpr ((hunder.mp hx).imp_right fun hx => ⟨hx.1, hd.parent hx.2⟩)
  · obtain ⟨s, hs, hnone⟩ := hd.rooted
    exact ⟨_, h.holds_of hs, by simpa [moved, hroot.symm] using hnone⟩

theorem keeps (h : Moved c p d d') {A : Set NodeId} (hc : c ∉ A) : Keeps A d d' := by
  classical
  obtain ⟨sp, L, R, hp, hLR, h⟩ := h
  intro x hx s hs
  have hxc : x ≠ c := fun h => hc (h ▸ hx)
  have hcut : ∀ l : List NodeId, (l.filter (· ≠ c)).filter (· ∈ A) = l.filter (· ∈ A) := fun l => by
    rw [List.filter_filter]
    exact List.filter_congr fun y _ => by grind
  refine ⟨_, h.holds_of hs, rfl, by simp [moved, hxc], rfl, ?_⟩
  by_cases hxp : x = p
  · subst hxp
    obtain rfl := hs.unique hp
    simp only [moved, if_pos]
    rw [← hcut s.children, hLR, List.filter_append, List.filter_append,
      List.filter_cons_of_neg (by simpa using hc)]
  · simp only [moved, if_neg hxp, hcut]

end Moved

/-- What a node holds after another one was taken from its parent. -/
def unlinked (c x : NodeId) (s : Slot) : Slot :=
  { s with
    parent := if x = c then none else s.parent
    children := s.children.filter (· ≠ c) }

theorem WellFormed.detach (hd : d.WellFormed) (c : NodeId) :
    Rewrites (unlinked c) d (d.detach c) := by
  have hkeep : ∀ {x s}, d.Holds x s → ¬ d.Under c x → s.children.filter (· ≠ c) = s.children :=
    fun {x s} hs hx => List.filter_eq_self.mpr fun y hy => by
      simpa using fun h : y = c => hx (hd.child ⟨s, hs, h ▸ hy⟩)
  unfold Document.detach
  rcases hparent : d.parent? c with _ | p
  · have hnot : ∀ x, ¬ d.Under c x := fun x hx => by
      rw [hd.parent?_eq_some_iff.mpr hx] at hparent
      cases hparent
    refine .of_eq_self fun x s hs => ?_
    have hnone : x = c → s.parent = none := by
      rintro rfl
      rw [← hs.parent?_eq, hparent]
    rcases s with ⟨data, g, parent, children, owner⟩
    simp only [unlinked, hkeep hs (hnot x)]
    split_ifs with hx
    · rw [← hnone hx]
    · rfl
  · have hcp := hd.parent?_eq_some_iff.mp hparent
    obtain ⟨sp, hp, -⟩ := hd.parent hcp
    have h1 := rewrites_update (f := fun s => { s with parent := none }) (fun _ => rfl) hcp.live
    have h2 := rewrites_update (f := fun s => { s with children := s.children.filter (· ≠ c) })
      (fun _ => rfl) (h1.live_iff.mpr hp.live)
    refine (h1.trans h2).congr fun x s hs => ?_
    by_cases hx : x = p
    · subst hx
      have hne : x ≠ c := fun h => hd.acyclic c (.single (h ▸ hcp))
      simp [unlinked, hne]
    · have hs' := hkeep hs fun h => hx (h.unique hcp)
      by_cases hxc : x = c
      · simp only [unlinked, if_neg hx, if_pos hxc, hs']
      · simp only [unlinked, if_neg hx, if_neg hxc, hs']

theorem insertIdx_eq (L : List NodeId) : ∀ {i : Nat}, i ≤ L.length →
    L.insertIdx i c = L.take i ++ c :: L.drop i := by
  induction L with
  | nil => intro i hi; obtain rfl := Nat.le_zero.mp hi; rfl
  | cons x L ih =>
    intro i hi
    cases i with
    | zero => rfl
    | succ i => simpa using ih (Nat.le_of_succ_le_succ hi)

/-- A node is taken from its parent and then put among the children of another one. -/
theorem WellFormed.relink (hd : d.WellFormed) (hc : d.Live c) {sp : Slot} (hp : d.Holds p sp)
    (hcp : c ≠ p) {A B : List NodeId} {g : List NodeId → List NodeId}
    (hAB : sp.children.filter (· ≠ c) = A ++ B)
    (hg : g (sp.children.filter (· ≠ c)) = A ++ c :: B) :
    Moved c p d (((d.detach c).update c fun s => { s with parent := some p }).update p
      fun s => { s with children := g s.children }) := by
  have h0 := hd.detach c
  have h1 := rewrites_update (f := fun s => { s with parent := some p }) (fun _ => rfl)
    (h0.live_iff.mpr hc)
  have h2 := rewrites_update (f := fun s => { s with children := g s.children }) (fun _ => rfl)
    (h1.live_iff.mpr (h0.live_iff.mpr hp.live))
  refine ⟨sp, A, B, hp, hAB, ((h0.trans h1).trans h2).congr fun x s hs => ?_⟩
  by_cases hx : x = p
  · subst hx
    obtain rfl := hs.unique hp
    simp only [unlinked, moved, if_neg hcp.symm, if_pos, hg]
  · by_cases hxc : x = c
    · simp only [unlinked, moved, if_neg hx, if_pos hxc]
    · simp only [unlinked, moved, if_neg hx, if_neg hxc]

theorem WellFormed.appendChild (hd : d.WellFormed) (hc : d.Live c) (hp : d.Live p) (hcp : c ≠ p) :
    Moved c p d (d.appendChild p c) := by
  obtain ⟨sp, hp⟩ := hp
  unfold Document.appendChild
  rw [if_pos (by simp [hc.contains, hp.live.contains])]
  exact hd.relink hc hp hcp (g := (· ++ [c])) (List.append_nil _).symm rfl

theorem WellFormed.insertAfter (hd : d.WellFormed) (hc : d.Live c) (hr : d.Under y p)
    (hne : y ≠ c) (hcp : c ≠ p) : Moved c p d (d.insertAfter y c).2 := by
  obtain ⟨sp, hp, -⟩ := hd.parent hr
  have h0 := hd.detach c
  have hle : (((d.detach c).position? y).map (· + 1)).getD 0 ≤ (sp.children.filter (· ≠ c)).length := by
    rcases hpos : (d.detach c).position? y with _ | j
    · exact Nat.zero_le _
    · obtain ⟨s, hs, hsp⟩ := hr
      have hys := h0.holds_of hs
      have hps := h0.holds_of hp
      unfold position? at hpos
      have hparent : (unlinked c y s).parent = some p := by simp [unlinked, hne, hsp]
      simp only [hys.parent?_eq, hparent, hps.children_eq, Option.bind_eq_bind,
        Option.bind_some] at hpos
      exact (List.findIdx?_eq_some_iff_getElem.mp hpos).1
  unfold Document.insertAfter
  rw [if_neg (by simp [hne, hc.contains]), hd.parent?_eq_some_iff.mpr hr]
  exact hd.relink hc hp hcp (List.take_append_drop _ _).symm (insertIdx_eq _ hle)

/-! ## Leaving out nodes -/

section

open scoped Classical

/-- What a node holds without some of its children. -/
noncomputable def pruned (S : Set NodeId) (s : Slot) : Slot :=
  { s with children := s.children.filter (· ∉ S) }

/-- The nodes in `S` were removed, and no others. -/
structure Pruned (S : Set NodeId) (d d' : Document) : Prop extends Tidy d d' where
  holds : ∀ x t, d'.Holds x t ↔ x ∉ S ∧ ∃ s, d.Holds x s ∧ t = pruned S s

namespace Pruned

variable {S : Set NodeId}

theorem under_iff (h : Pruned S d d') : d'.Under x p ↔ x ∉ S ∧ d.Under x p := by
  constructor
  · rintro ⟨t, ht, hp⟩
    obtain ⟨hx, s, hs, rfl⟩ := (h.holds x t).mp ht
    exact ⟨hx, s, hs, hp⟩
  · rintro ⟨hx, s, hs, hp⟩
    exact ⟨_, (h.holds x _).mpr ⟨hx, s, hs, rfl⟩, hp⟩

theorem among_iff (h : Pruned S d d') : d'.Among x p ↔ x ∉ S ∧ p ∉ S ∧ d.Among x p := by
  constructor
  · rintro ⟨t, ht, hx⟩
    obtain ⟨hp, s, hs, rfl⟩ := (h.holds p t).mp ht
    obtain ⟨hx, hxS⟩ := List.mem_filter.mp hx
    exact ⟨of_decide_eq_true hxS, hp, s, hs, hx⟩
  · rintro ⟨hx, hp, s, hs, hmem⟩
    exact ⟨_, (h.holds p _).mpr ⟨hp, s, hs, rfl⟩, List.mem_filter.mpr ⟨hmem, decide_eq_true hx⟩⟩

theorem downward (h : Pruned S d d') (hd : d.Downward) : d'.Downward where
  toSound := h.sound hd.toSound
  blank := h.blank hd.blank
  child hx :=
    let ⟨hxS, _, hx⟩ := h.among_iff.mp hx
    h.under_iff.mpr ⟨hxS, hd.child hx⟩
  distinct {p t} ht := by
    obtain ⟨-, s, hs, rfl⟩ := (h.holds p t).mp ht
    exact (hd.distinct hs).filter _
  acyclic x hx := hd.acyclic x (TransGen.mono (fun _ _ h' => (h.under_iff.mp h').2) _ _ hx)

theorem wellFormed (h : Pruned S d d') (hd : d.WellFormed) (hroot : root ∉ S)
    (hS : ∀ x p, d.Under x p → p ∈ S → x ∈ S) : d'.WellFormed where
  toDownward := h.downward hd.toDownward
  parent {x p} hx := by
    obtain ⟨hxS, hx⟩ := h.under_iff.mp hx
    exact h.among_iff.mpr ⟨hxS, fun hp => hxS (hS x p hx hp), hd.parent hx⟩
  rooted := by
    obtain ⟨s, hs, hnone⟩ := hd.rooted
    exact ⟨_, (h.holds root _).mpr ⟨hroot, s, hs, rfl⟩, hnone⟩

theorem keeps (h : Pruned S d d') {A : Set NodeId} (hA : ∀ x ∈ A, x ∉ S) : Keeps A d d' := by
  intro x hx s hs
  refine ⟨_, (h.holds x _).mpr ⟨hA x hx, s, hs, rfl⟩, rfl, rfl, rfl, ?_⟩
  rw [pruned, List.filter_filter]
  refine List.filter_congr fun y _ => ?_
  have := hA y
  grind

end Pruned

/-- The nodes at or below any of some nodes. -/
def below (d : Document) (cs : List NodeId) : Set NodeId :=
  {x | ∃ c ∈ cs, ReflTransGen d.Among x c}

theorem below_of_among {cs : List NodeId} (h : d.Among x y) (hy : y ∈ d.below cs) :
    x ∈ d.below cs :=
  let ⟨c, hc, hyc⟩ := hy
  ⟨c, hc, .head h hyc⟩

theorem mem_below_cons {cs : List NodeId} : x ∈ d.below (c :: cs) ↔ x ∈ d.below [c] ∨ x ∈ d.below cs := by
  simp only [below, Set.mem_ofPred_eq, List.mem_cons, List.not_mem_nil, or_false, exists_eq_or_imp,
    exists_eq_left]

theorem Pruned.refl (d : Document) : Pruned ∅ d d := by
  refine ⟨Tidy.refl d, fun x t => ?_⟩
  have hself : ∀ s, pruned ∅ s = s := fun s => by
    simp only [pruned, Set.mem_empty_iff_false, not_false_eq_true, decide_true, List.filter_true]
  simp only [Set.mem_empty_iff_false, not_false_eq_true, true_and, hself, exists_eq_right']

theorem pruned_pruned (S S' : Set NodeId) (s : Slot) : pruned S' (pruned S s) = pruned (S ∪ S') s := by
  simp only [pruned, List.filter_filter, Set.mem_union, not_or, Bool.decide_and, Bool.and_comm]

theorem Pruned.trans {S S' : Set NodeId} (h : Pruned S d d') (h' : Pruned S' d' d'') :
    Pruned (S ∪ S') d d'' := by
  refine ⟨h.toTidy.trans h'.toTidy, fun x t => ?_⟩
  rw [h'.holds, Set.mem_union, not_or, and_assoc, and_left_comm]
  refine and_congr_right fun _ => ⟨?_, ?_⟩
  · rintro ⟨s', hs', rfl⟩
    obtain ⟨hx, s, hs, rfl⟩ := (h.holds x s').mp hs'
    exact ⟨hx, s, hs, pruned_pruned S S' s⟩
  · rintro ⟨hx, s, hs, rfl⟩
    exact ⟨_, (h.holds x _).mpr ⟨hx, s, hs, rfl⟩, (pruned_pruned S S' s).symm⟩

theorem Downward.among_unique (hd : d.Downward) (h : d.Among x p) (h' : d.Among x q) : p = q :=
  (hd.child h).unique (hd.child h')

/-- A node that is not listed anywhere is released with all that is listed below it. -/
theorem Downward.release (hd : d.Downward) (hc : d.Live c) (htop : ∀ p, ¬ d.Among c p) :
    Pruned (d.below [c]) d (d.release c) := by
  obtain ⟨⟨hsound, hblank, hfreed⟩, hholds⟩ := hd.holds_release hc
  refine ⟨⟨fun _ => hsound, fun _ => hblank, hfreed⟩, fun x t => ?_⟩
  have hmem : ∀ y, y ∈ d.below [c] ↔ ReflTransGen d.Among y c := fun y => by simp [below]
  have hself : ∀ s, d.Holds x s → x ∉ d.below [c] → pruned (d.below [c]) s = s := by
    intro s hs hx
    have hkeep : s.children.filter (· ∉ d.below [c]) = s.children := by
      refine List.filter_eq_self.mpr fun y hy => decide_eq_true fun hyS => ?_
      rcases ((hmem y).mp hyS).cases_head with rfl | ⟨z, hyz, hzc⟩
      · exact htop x ⟨s, hs, hy⟩
      · obtain rfl := hd.among_unique ⟨s, hs, hy⟩ hyz
        exact hx ((hmem x).mpr hzc)
    rw [pruned, hkeep]
  rw [hholds, ← hmem, and_comm]
  refine and_congr_right fun hx => ⟨fun ht => ⟨t, ht, (hself t ht hx).symm⟩, ?_⟩
  rintro ⟨s, hs, rfl⟩
  exact (hself s hs hx).symm ▸ hs

/-- Nodes that are not listed anywhere are released one after the other. -/
theorem Downward.releaseAll : ∀ {cs : List NodeId} {d : Document}, d.Downward → cs.Nodup →
    (∀ c ∈ cs, d.Live c ∧ ∀ p, ¬ d.Among c p) → Pruned (d.below cs) d (cs.foldl Document.release d)
  | [], d, _, _, _ => by
    have hS : d.below [] = ∅ := Set.eq_empty_of_forall_notMem fun x ⟨c, hc, _⟩ => by cases hc
    exact hS ▸ Pruned.refl d
  | c :: cs, d, hd, hnd, hall => by
    obtain ⟨hc, htop⟩ := hall c List.mem_cons_self
    rw [List.nodup_cons] at hnd
    have h1 := hd.release hc htop
    have hcs : ∀ b ∈ cs, (d.release c).Live b ∧ ∀ p, ¬ (d.release c).Among b p := fun b hb => by
      obtain ⟨⟨s, hs⟩, hbtop⟩ := hall b (List.mem_cons_of_mem c hb)
      refine ⟨⟨_, (h1.holds b _).mpr ⟨?_, s, hs, rfl⟩⟩, fun p hp => hbtop p (h1.among_iff.mp hp).2.2⟩
      rintro ⟨a, ha, hba⟩
      obtain rfl := List.mem_singleton.mp ha
      rcases hba.cases_head with rfl | ⟨z, hbz, -⟩
      · exact hnd.1 hb
      · exact hbtop z hbz
    have h2 := Downward.releaseAll (h1.downward hd) hnd.2 hcs
    have hS : d.below (c :: cs) = d.below [c] ∪ (d.release c).below cs := by
      ext x
      rw [mem_below_cons, Set.mem_union]
      refine or_congr_right' fun hx => ⟨?_, ?_⟩
      · rintro ⟨b, hb, hxb⟩
        refine ⟨b, hb, ?_⟩
        induction hxb using ReflTransGen.head_induction_on with
        | refl => exact .refl
        | head hxy _ ih =>
          have hy := fun hy => hx (below_of_among hxy hy)
          exact .head (h1.among_iff.mpr ⟨hx, hy, hxy⟩) (ih hy)
      · rintro ⟨b, hb, hxb⟩
        exact ⟨b, hb, ReflTransGen.mono (fun _ _ h => (h1.among_iff.mp h).2.2) _ _ hxb⟩
    exact hS ▸ h1.trans h2

/-- Nodes are taken from the lists that they are in, and then released. -/
theorem Downward.cut (hd : d.Downward) {cs : List NodeId} (hnd : cs.Nodup)
    (hlive : ∀ b ∈ cs, d.Live b) (h : Rewrites e d d')
    (hchildren : ∀ x s, d.Holds x s → (e x s).children = s.children.filter (· ∉ cs))
    (hparent : ∀ x s p, d.Holds x s → (e x s).parent = some p → s.parent = some p)
    (hsame : ∀ x s, d.Holds x s → x ∉ cs →
      e x s = { s with children := s.children.filter (· ∉ cs) }) :
    Pruned (d.below cs) d (cs.foldl Document.release d') := by
  have hamong : ∀ {x p}, d'.Among x p ↔ x ∉ cs ∧ d.Among x p := fun {x p} => by
    constructor
    · rintro ⟨t, ht, hx⟩
      obtain ⟨s, hs, rfl⟩ := (h.holds p t).mp ht
      rw [hchildren p s hs, List.mem_filter, decide_eq_true_eq] at hx
      exact ⟨hx.2, s, hs, hx.1⟩
    · rintro ⟨hx, s, hs, hmem⟩
      refine ⟨_, h.holds_of hs, ?_⟩
      rw [hchildren p s hs, List.mem_filter, decide_eq_true_eq]
      exact ⟨hmem, hx⟩
  have hunder : ∀ {x p}, d'.Under x p → d.Under x p := fun {x p} ⟨t, ht, hp⟩ => by
    obtain ⟨s, hs, rfl⟩ := (h.holds x t).mp ht
    exact ⟨s, hs, hparent x s p hs hp⟩
  have hd' : d'.Downward := by
    refine ⟨h.sound hd.toSound, h.blank hd.blank, fun {x p} hx => ?_, fun {p t} ht => ?_,
      fun x hx => hd.acyclic x (TransGen.mono (fun _ _ => hunder) _ _ hx)⟩
    · obtain ⟨hxc, hx⟩ := hamong.mp hx
      obtain ⟨s, hs, hp⟩ := hd.child hx
      exact ⟨_, h.holds_of hs, by rw [hsame x s hs hxc]; exact hp⟩
    · obtain ⟨s, hs, rfl⟩ := (h.holds p t).mp ht
      exact hchildren p s hs ▸ (hd.distinct hs).filter _
  have hS : d'.below cs = d.below cs := by
    ext x
    constructor
    · rintro ⟨b, hb, hxb⟩
      exact ⟨b, hb, ReflTransGen.mono (fun _ _ h => (hamong.mp h).2) _ _ hxb⟩
    · rintro ⟨b, hb, hxb⟩
      -- the way upward is cut at the first node that was taken out of its list
      induction hxb using ReflTransGen.head_induction_on with
      | refl => exact ⟨b, hb, .refl⟩
      | @head x y hxy _ ih =>
        by_cases hx : x ∈ cs
        · exact ⟨x, hx, .refl⟩
        · exact below_of_among (hamong.mpr ⟨hx, hxy⟩) ih
  have hpruned := hd'.releaseAll hnd fun b hb =>
    ⟨h.live_iff.mpr (hlive b hb), fun p hp => (hamong.mp hp).1 hb⟩
  rw [hS] at hpruned
  refine ⟨h.toTidy.trans hpruned.toTidy, fun x t => ?_⟩
  rw [hpruned.holds]
  refine and_congr_right fun hx => ?_
  have hxc : x ∉ cs := fun hxc => hx ⟨x, hxc, .refl⟩
  have heq : ∀ s, d.Holds x s → pruned (d.below cs) (e x s) = pruned (d.below cs) s := by
    intro s hs
    rw [hsame x s hs hxc]
    simp only [pruned, List.filter_filter]
    congr 1
    refine List.filter_congr fun y _ => ?_
    have hy : y ∈ cs → y ∈ d.below cs := fun hy => ⟨y, hy, .refl⟩
    grind
  constructor
  · rintro ⟨s', hs', rfl⟩
    obtain ⟨s, hs, rfl⟩ := (h.holds x s').mp hs'
    exact ⟨s, hs, heq s hs⟩
  · rintro ⟨s, hs, rfl⟩
    exact ⟨_, h.holds_of hs, (heq s hs).symm⟩

theorem WellFormed.remove (hd : d.WellFormed) (hc : d.Live c) (hroot : c ≠ root) :
    Pruned (d.below [c]) d (d.remove c) := by
  unfold Document.remove
  rw [if_neg (by simp [hroot, hc.contains])]
  refine hd.toDownward.cut (List.nodup_singleton c) (by simpa using hc) (hd.detach c)
    (fun x s _ => by simp [unlinked]) (fun x s p _ hp => ?_) fun x s _ hx => ?_
  · by_cases hx : x = c
    · simp [unlinked, hx] at hp
    · simpa [unlinked, hx] using hp
  · have hx : x ≠ c := by simpa using hx
    simp [unlinked, hx]

theorem Downward.removeChildren (hd : d.Downward) (hc : d.Live c) :
    Pruned (d.below (d.children c)) d (d.removeChildren c) := by
  obtain ⟨sc, hsc⟩ := hc
  have hother : ∀ x s, d.Holds x s → x ≠ c → s.children.filter (· ∉ sc.children) = s.children := by
    intro x s hs hx
    refine List.filter_eq_self.mpr fun y hy => decide_eq_true fun hyc => hx ?_
    exact hd.among_unique ⟨s, hs, hy⟩ ⟨sc, hsc, hyc⟩
  unfold Document.removeChildren
  rw [hsc.children_eq]
  refine hd.cut (hd.distinct hsc) (fun b hb => (hd.child ⟨sc, hsc, hb⟩).live)
    (rewrites_update (fun _ => rfl) hsc.live) (fun x s hs => ?_) (fun x s p _ hp => ?_)
    fun x s hs _ => ?_
  · by_cases hx : x = c
    · subst hx
      obtain rfl := hs.unique hsc
      simp
    · simp only [if_neg hx, hother x s hs hx]
  · split_ifs at hp <;> exact hp
  · by_cases hx : x = c
    · subst hx
      obtain rfl := hs.unique hsc
      simp
    · simp only [if_neg hx, hother x s hs hx]

end

end LiveMarkup.Document
