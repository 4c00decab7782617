import Mathlib
import LiveMarkup.Proofs.Document.Growth

/-!
# Operations on well-formed documents

Every operation that makes no nodes keeps a document well-formed and frees no slot twice (`Steady`),
as long as no handle finds a free slot, the root stays, and no node is placed below itself
(`Placeable`).  What the operations on owned content keep is stated for sets of nodes that are closed
upward (`WellFormed.clearAmong`, `WellFormed.insertOwnedAfter`).
-/

namespace LiveMarkup.Document

open Relation

variable {d d' d'' : Document} {x y c p q u : NodeId} {s t : Slot} {cs : List NodeId}
  {A : Set NodeId} {f : Slot → Slot}

/-- A document is well-formed, and no node was made on the way to it. -/
structure Steady (d d' : Document) : Prop where
  wellFormed : d'.WellFormed
  tidy : Tidy d d'

theorem Steady.refl (hd : d.WellFormed) : Steady d d := ⟨hd, .refl d⟩

theorem Steady.trans (h : Steady d d') (h' : Steady d' d'') : Steady d d'' :=
  ⟨h'.wellFormed, h.tidy.trans h'.tidy⟩

/-- A node may be placed below another one: it is not the root, and that one is not at or below it. -/
def Placeable (d : Document) (c p : NodeId) : Prop :=
  c ≠ root ∧ ¬ ReflTransGen d.Under p c

theorem Placeable.ne (h : d.Placeable c p) : c ≠ p := fun heq => h.2 (heq ▸ .refl)

theorem WellFormed.not_under_root (hd : d.WellFormed) : ¬ d.Under root p := by
  rintro ⟨t, ht, hp⟩
  obtain ⟨s, hs, hnone⟩ := hd.rooted
  rw [ht.unique hs, hnone] at hp
  cases hp

theorem Under.ne_root (h : d.Under x p) (hd : d.WellFormed) : x ≠ root := by
  rintro rfl
  exact hd.not_under_root h

/-- A node may be placed again below its parent. -/
theorem Under.placeable (h : d.Under x p) (hd : d.WellFormed) : d.Placeable x p :=
  ⟨h.ne_root hd, hd.not_below h⟩

/-- Whether a node may be placed below another one can be found out by a walk upward. -/
theorem WellFormed.placeable_iff (hd : d.WellFormed) :
    d.Placeable c p ↔ c ≠ root ∧ c ≠ p ∧ d.isDescendant c p = false := by
  rw [← Bool.not_eq_true, hd.isDescendant_iff, Placeable, reflTransGen_iff_eq_or_transGen, not_or]

/-! ## Writing -/

theorem WellFormed.steady_update (hd : d.WellFormed) (hc : d.Finds c)
    (hgen : ∀ s, (f s).generation = s.generation) (hparent : ∀ s, (f s).parent = s.parent)
    (hchildren : ∀ s, (f s).children = s.children) : Steady d (d.update c f) := by
  by_cases hcontains : d.contains c = true
  · have h := rewrites_update hgen (hc hcontains)
    refine ⟨h.wellFormed hd (fun x s _ => ?_) fun x s _ => ?_, h.toTidy⟩
    · split_ifs
      exacts [hparent s, rfl]
    · split_ifs
      exacts [hchildren s, rfl]
  · unfold Document.update
    rw [if_neg hcontains]
    exact .refl hd

/-! ## Moving -/

theorem Moved.steady (h : Moved c p d d') (hd : d.WellFormed) (hc : d.Live c)
    (hplace : d.Placeable c p) : Steady d d' :=
  ⟨h.wellFormed hd hc hplace.1 hplace.2, let ⟨_, h⟩ := h.rewrites; h.toTidy⟩

/-- What could be placed below a node before another one was moved there can be placed there now. -/
theorem Moved.placeable (h : Moved c p d d') (hc : d.Live c) (hcp : d.Placeable c p)
    (hx : d.Placeable x p) : d'.Placeable x p := by
  refine ⟨hx.1, fun hpx => ?_⟩
  rcases reflTransGen_iff_eq_or_transGen.mp hpx with rfl | hpx
  · exact hx.2 .refl
  · rcases transGen_link (r := d.Under)
        (fun x y h' => ((h.under_iff hc).mp h').symm.imp_left And.right) hpx with hpx | ⟨hpc, -⟩
    · exact hx.2 hpx.to_reflTransGen
    · exact hcp.2 hpc

theorem WellFormed.steady_appendChild (hd : d.WellFormed) (hp : d.Finds p) (hc : d.Finds c)
    (hplace : d.contains c = true → d.Placeable c p) : Steady d (d.appendChild p c) := by
  by_cases hcontains : d.contains p = true ∧ d.contains c = true
  · obtain ⟨hpc, hcc⟩ := hcontains
    exact (hd.appendChild (hc hcc) (hp hpc) (hplace hcc).ne).steady hd (hc hcc) (hplace hcc)
  · unfold Document.appendChild
    rw [if_neg (by simpa using hcontains)]
    exact .refl hd

/-- Either nothing happens, or a node is moved below the parent of another one. -/
theorem WellFormed.insertAfter_cases (hd : d.WellFormed) (hc : d.Finds c)
    (hplace : ∀ p, d.Under y p → d.Placeable c p) :
    (d.insertAfter y c).2 = d ∨
      ∃ p, d.Under y p ∧ d.Live c ∧ Moved c p d (d.insertAfter y c).2 := by
  by_cases hcontains : y ≠ c ∧ d.contains c = true
  · obtain ⟨hne, hcc⟩ := hcontains
    rcases hparent : d.parent? y with _ | p
    · left
      unfold Document.insertAfter
      rw [if_neg (by simp [hne, hcc]), hparent]
    · have hy := hd.parent?_eq_some_iff.mp hparent
      exact .inr ⟨p, hy, hc hcc, hd.insertAfter (hc hcc) hy hne (hplace p hy).ne⟩
  · left
    unfold Document.insertAfter
    rw [if_pos (by simpa [or_iff_not_imp_left] using hcontains)]

theorem WellFormed.steady_insertAfter (hd : d.WellFormed) (hc : d.Finds c)
    (hplace : ∀ p, d.Under y p → d.Placeable c p) : Steady d (d.insertAfter y c).2 := by
  rcases hd.insertAfter_cases hc hplace with h | ⟨p, hy, hlive, h⟩
  · rw [h]
    exact .refl hd
  · exact h.steady hd hlive (hplace p hy)

theorem WellFormed.steady_detach (hd : d.WellFormed) (c : NodeId) : Steady d (d.detach c) := by
  have h := hd.detach c
  have hunder : ∀ {x p}, (d.detach c).Under x p ↔ x ≠ c ∧ d.Under x p := fun {x p} => by
    constructor
    · rintro ⟨t, ht, hp⟩
      obtain ⟨s, hs, rfl⟩ := (h.holds x t).mp ht
      by_cases hx : x = c
      · simp [unlinked, hx] at hp
      · exact ⟨hx, s, hs, by simpa [unlinked, hx] using hp⟩
    · rintro ⟨hx, s, hs, hp⟩
      exact ⟨_, h.holds_of hs, by simpa [unlinked, hx] using hp⟩
  have hamong : ∀ {x p}, (d.detach c).Among x p ↔ x ≠ c ∧ d.Among x p := fun {x p} => by
    constructor
    · rintro ⟨t, ht, hx⟩
      obtain ⟨s, hs, rfl⟩ := (h.holds p t).mp ht
      have hx : x ∈ s.children ∧ x ≠ c := by simpa [unlinked] using hx
      exact ⟨hx.2, s, hs, hx.1⟩
    · rintro ⟨hx, s, hs, hmem⟩
      exact ⟨_, h.holds_of hs, by simp [unlinked, hmem, hx]⟩
  refine ⟨⟨⟨h.sound hd.toSound, h.blank hd.blank, fun hx => ?_, fun {p t} ht => ?_, fun x hx => ?_⟩,
    fun hx => ?_, ?_⟩, h.toTidy⟩
  · exact hunder.mpr ((hamong.mp hx).imp_right hd.child)
  · obtain ⟨s, hs, rfl⟩ := (h.holds p t).mp ht
    exact (hd.distinct hs).filter _
  · exact hd.acyclic x (TransGen.mono (fun _ _ h => (hunder.mp h).2) _ _ hx)
  · exact hamong.mpr ((hunder.mp hx).imp_right hd.parent)
  · obtain ⟨s, hs, hnone⟩ := hd.rooted
    exact ⟨_, h.holds_of hs, by simp [unlinked, hnone]⟩

/-! ## Removing -/

theorem WellFormed.root_not_mem_below (hd : d.WellFormed) (hcs : root ∉ cs) : root ∉ d.below cs := by
  rintro ⟨c, hc, hroot⟩
  rcases hroot.cases_head with rfl | ⟨y, hy, -⟩
  · exact hcs hc
  · exact hd.not_under_root (hd.child hy)

theorem Pruned.steady (h : Pruned (d.below cs) d d') (hd : d.WellFormed) (hcs : root ∉ cs) :
    Steady d d' :=
  ⟨h.wellFormed hd (hd.root_not_mem_below hcs) fun _ _ hx hp => below_of_among (hd.parent hx) hp,
    h.toTidy⟩

/-- Either nothing happens, or a node goes with all that stands below it. -/
theorem WellFormed.remove_cases (hd : d.WellFormed) (hc : d.Finds c) :
    d.remove c = d ∨ c ≠ root ∧ Pruned (d.below [c]) d (d.remove c) := by
  by_cases hcontains : c ≠ root ∧ d.contains c = true
  · exact .inr ⟨hcontains.1, hd.remove (hc hcontains.2) hcontains.1⟩
  · left
    unfold Document.remove
    rw [if_pos (by simpa [or_iff_not_imp_left] using hcontains)]

theorem WellFormed.steady_remove (hd : d.WellFormed) (hc : d.Finds c) : Steady d (d.remove c) := by
  rcases hd.remove_cases hc with h | ⟨hroot, h⟩
  · rw [h]
    exact .refl hd
  · exact h.steady hd (by simpa using hroot.symm)

theorem WellFormed.steady_removeChildren (hd : d.WellFormed) (hc : d.Issued c) :
    Steady d (d.removeChildren c) ∧ (d.removeChildren c).Issued c ∧
      ∀ A, Closed A d → (∀ x ∈ A, ¬ d.Under x c) → Keeps A d (d.removeChildren c) := by
  by_cases hcontains : d.contains c = true
  · have hlive := hc.finds hcontains
    have h := hd.toDownward.removeChildren hlive
    have hchild : ∀ {x}, x ∈ d.children c → d.Under x c := fun hx =>
      hd.child (hd.mem_children_iff.mp hx)
    refine ⟨h.steady hd fun hroot => hd.not_under_root (hchild hroot), ?_, fun A hA hnot => ?_⟩
    · obtain ⟨s, hs⟩ := hlive
      refine Live.issued ⟨_, (h.holds c _).mpr ⟨?_, s, hs, rfl⟩⟩
      rintro ⟨b, hb, hcb⟩
      exact hd.not_below (hchild hb) (hd.under_of_below hcb)
    · refine h.keeps fun x hx ⟨b, hb, hxb⟩ => hnot b ?_ (hchild hb)
      exact hA.above hx (hd.under_of_below hxb)
  · have hnone : d.slot? c = none := by simpa [contains] using hcontains
    have hself : d.removeChildren c = d := by
      unfold Document.removeChildren Document.update Document.children
      rw [if_neg hcontains, hnone]
      rfl
    rw [hself]
    exact ⟨.refl hd, hc, fun A _ _ => .refl A d⟩

/-- New content goes in once the old one is gone. -/
theorem WellFormed.setInnerHtml (hd : d.WellFormed) (hc : d.Issued c) (html : List Char) :
    ∃ d0, Steady d d0 ∧ Grows d0 (d.setInnerHtml c html) ∧
      ∀ A, Closed A d → (∀ x ∈ A, ¬ d.Under x c) → Keeps A d d0 := by
  obtain ⟨h0, hissued, hkeeps⟩ := hd.steady_removeChildren hc
  exact ⟨_, h0, WellFormed.graftAll _ h0.wellFormed hissued, hkeeps⟩

/-! ## Owned content -/

theorem WellFormed.nodup_children (hd : d.WellFormed) (c : NodeId) : (d.children c).Nodup := by
  unfold Document.children
  rcases hs : d.slot? c with _ | s
  · exact List.nodup_nil
  · rcases hd.slot?_cases hs with hs | ⟨g, rfl⟩
    · exact hd.distinct hs
    · exact List.nodup_nil

/-- Of siblings, nodes stay that are owned neither by the given owners nor by siblings that go. -/
theorem WellFormed.clearAmong : ∀ {cs : List NodeId} (owners : List NodeId) {d : Document},
    d.WellFormed → cs.Nodup → (∀ c ∈ cs, d.Under c p) → Steady d (d.clearAmong owners cs).2 ∧
      ∀ A, Closed A d → (∀ c ∈ cs, c ∈ A → ∀ u, d.owner? c = some u → u ∉ owners ∧ (u ∈ cs → u ∈ A)) →
        Keeps A d (d.clearAmong owners cs).2
  | [], owners, d, hd, _, _ => ⟨.refl hd, fun A _ _ => .refl A d⟩
  | c :: cs, owners, d, hd, hnd, hcs => by
    rw [List.nodup_cons] at hnd
    have hc := hcs c List.mem_cons_self
    have hcs' := fun b hb => hcs b (List.mem_cons_of_mem c hb)
    rw [Document.clearAmong]
    by_cases hany : (d.owner? c).any (· ∈ owners) = true
    · rw [if_pos hany]
      have hpruned := hd.remove hc.live (hc.ne_root hd)
      have h1 := hpruned.steady hd (by simpa using (hc.ne_root hd).symm)
      have hout : ∀ b ∈ cs, b ∉ d.below [c] := by
        rintro b hb ⟨a, ha, hba⟩
        obtain rfl := List.mem_singleton.mp ha
        rcases hba.cases_head with rfl | ⟨y, hy, hya⟩
        · exact hnd.1 hb
        · obtain rfl := (hd.child hy).unique (hcs' b hb)
          exact hd.not_below hc (hd.under_of_below hya)
      obtain ⟨h2, hkeeps⟩ := WellFormed.clearAmong (c :: owners) h1.wellFormed hnd.2
        fun b hb => hpruned.under_iff.mpr ⟨hout b hb, hcs' b hb⟩
      refine ⟨h1.trans h2, fun A hA howners => ?_⟩
      have hcA : c ∉ A := fun hcA => by
        rcases hu : d.owner? c with _ | u <;> rw [hu] at hany
        · cases hany
        · exact (howners c List.mem_cons_self hcA u hu).1 (of_decide_eq_true hany)
      have hkeep1 : Keeps A d (d.remove c) := hpruned.keeps fun x hx hbelow => by
        obtain ⟨a, ha, hxa⟩ := hbelow
        obtain rfl := List.mem_singleton.mp ha
        exact hcA (hA.above hx (hd.under_of_below hxa))
      refine hkeep1.trans (hkeeps A (hkeep1.closed hA) fun b hb hbA u hu => ?_)
      obtain ⟨s, hs⟩ := (hcs' b hb).live
      obtain ⟨s', hs', -, -, howner, -⟩ := hkeep1 b hbA s hs
      rw [hs'.owner?_eq, howner, ← hs.owner?_eq] at hu
      obtain ⟨hu1, hu2⟩ := howners b (List.mem_cons_of_mem c hb) hbA u hu
      refine ⟨fun hmem => ?_, fun hmem => hu2 (List.mem_cons_of_mem c hmem)⟩
      rcases List.mem_cons.mp hmem with rfl | hmem
      · exact hcA (hu2 List.mem_cons_self)
      · exact hu1 hmem
    · rw [if_neg hany]
      obtain ⟨h, hkeeps⟩ := WellFormed.clearAmong owners hd hnd.2 hcs'
      refine ⟨h, fun A hA howners => hkeeps A hA fun b hb hbA u hu => ?_⟩
      obtain ⟨hu1, hu2⟩ := howners b (List.mem_cons_of_mem c hb) hbA u hu
      exact ⟨hu1, fun hmem => hu2 (List.mem_cons_of_mem c hmem)⟩

theorem WellFormed.mem_followingSiblings (hd : d.WellFormed) (h : x ∈ d.followingSiblings c) :
    x ≠ c ∧ ∃ p, d.Under c p ∧ d.Under x p := by
  unfold followingSiblings at h
  rcases hparent : d.parent? c with _ | p <;> rw [hparent] at h
  · cases h
  rcases hpos : d.position? c with _ | i <;> rw [hpos] at h
  · cases h
  have hc := hd.parent?_eq_some_iff.mp hparent
  obtain ⟨s, hs, -⟩ := hd.parent hc
  refine ⟨?_, p, hc, hd.child (hd.mem_children_iff.mp (List.mem_of_mem_drop h))⟩
  rintro rfl
  simp only [position?, hparent, Option.bind_eq_bind, Option.bind_some] at hpos
  obtain ⟨hi, hx, -⟩ := List.findIdx?_eq_some_iff_getElem.mp hpos
  obtain ⟨j, hj, hjx⟩ := List.mem_drop_iff_getElem.mp h
  have hnd : (d.children p).Nodup := hs.children_eq ▸ hd.distinct hs
  have := (hnd.getElem_inj_iff).mp (hjx.trans (of_decide_eq_true hx).symm)
  omega

/-- Of the nodes in `A`, none that comes after a node beside it is owned by that node, or by a sibling
that is not in `A`. -/
def Unowned (d : Document) (c : NodeId) (A : Set NodeId) : Prop :=
  ∀ x ∈ d.followingSiblings c, x ∈ A → ∀ u, d.owner? x = some u →
    u ≠ c ∧ (u ∈ d.followingSiblings c → u ∈ A)

theorem WellFormed.clearOwned (hd : d.WellFormed) (c : NodeId) : Steady d (d.clearOwned c).2 ∧
    ∀ A, Closed A d → d.Unowned c A → Keeps A d (d.clearOwned c).2 := by
  have hunder : ∃ p, ∀ x ∈ d.followingSiblings c, d.Under x p := by
    by_cases h : ∃ p, d.Under c p
    · obtain ⟨p, hp⟩ := h
      refine ⟨p, fun x hx => ?_⟩
      obtain ⟨-, q, hq, hx⟩ := hd.mem_followingSiblings hx
      exact hq.unique hp ▸ hx
    · refine ⟨c, fun x hx => ?_⟩
      obtain ⟨-, q, hq, -⟩ := hd.mem_followingSiblings hx
      exact absurd ⟨q, hq⟩ h
  obtain ⟨p, hunder⟩ := hunder
  have hnd : (d.followingSiblings c).Nodup := by
    unfold followingSiblings
    split
    · exact (hd.nodup_children _).sublist (List.drop_sublist _ _)
    · exact List.nodup_nil
  obtain ⟨h, hkeeps⟩ := WellFormed.clearAmong [c] hd hnd hunder
  refine ⟨h, fun A hA howners => hkeeps A hA fun x hx hxA u hu => ?_⟩
  obtain ⟨hu1, hu2⟩ := howners x hx hxA u hu
  exact ⟨by simpa using hu1, hu2⟩

/-- The nodes at or above a node are closed upward. -/
theorem WellFormed.closed_above (hd : d.WellFormed) (hc : d.Live c) :
    Closed {x | ReflTransGen d.Under c x} d where
  live x hx := by
    rcases hx.cases_tail with rfl | ⟨y, -, hy⟩
    · exact hc
    · obtain ⟨s, hs, -⟩ := hd.parent hy
      exact hs.live
  parent hx hp := hx.tail hp

/-- Moving nodes changes neither the other nodes nor which handles were given out. -/
structure Moves (cs : List NodeId) (d d' : Document) : Prop where
  steady : Steady d d'
  grown : Grown d d'
  keeps : ∀ A : Set NodeId, (∀ c ∈ cs, c ∉ A) → Keeps A d d'

theorem Moves.refl (hd : d.WellFormed) (cs : List NodeId) : Moves cs d d :=
  ⟨.refl hd, .refl d, fun _ _ => .refl _ d⟩

theorem Moves.trans (h : Moves cs d d') (h' : Moves cs d' d'') : Moves cs d d'' where
  steady := h.steady.trans h'.steady
  grown := h.grown.trans h'.grown
  keeps A hA := (h.keeps A hA).trans (h'.keeps A hA)

theorem Moves.mono {bs : List NodeId} (h : Moves bs d d') (hsub : ∀ b ∈ bs, b ∈ cs) : Moves cs d d' :=
  ⟨h.steady, h.grown, fun A hA => h.keeps A fun b hb => hA b (hsub b hb)⟩

theorem Moved.moves (h : Moved c p d d') (hd : d.WellFormed) (hc : d.Live c)
    (hplace : d.Placeable c p) : Moves [c] d d' :=
  ⟨h.steady hd hc hplace, h.grown, fun _ hA => h.keeps (hA c List.mem_cons_self)⟩

/-- An unowned node gets an owner. -/
theorem WellFormed.own (hd : d.WellFormed) (hc : d.Live c) (m : NodeId) :
    Moves [c] d (if (d.owner? c).isNone then d.setOwner c (some m) else d) ∧
      (if (d.owner? c).isNone then d.setOwner c (some m) else d).Under = d.Under := by
  split
  · have h := rewrites_update (f := fun s => { s with owner := some m }) (fun _ => rfl) hc
    have hparent : ∀ x s, (if x = c then { s with owner := some m } else s : Slot).parent = s.parent :=
      fun x s => by split_ifs <;> rfl
    refine ⟨⟨hd.steady_update (fun _ => hc) (fun _ => rfl) (fun _ => rfl) fun _ => rfl, h.grown,
      fun _ hA => h.keeps fun x hx s _ => if_neg ?_⟩, ?_⟩
    · exact fun hxc => hA c List.mem_cons_self (hxc ▸ hx)
    · funext x p
      exact propext (h.under_iff fun x s _ => hparent x s)
  · exact ⟨.refl hd _, rfl⟩

/-- The children of a node may go after another one if they may be placed below its parent. -/
theorem WellFormed.insertOwnedAfter {m F : NodeId} : ∀ {cs : List NodeId} {d : Document}
    {y : NodeId}, d.WellFormed → cs.Nodup → (∀ c ∈ cs, d.Under c F) →
      (∀ p, d.Under y p → ∀ c ∈ cs, d.Placeable c p) →
        Moves cs d (Document.insertOwnedAfter m d y cs)
  | [], d, y, hd, _, _, _ => .refl hd _
  | c :: cs, d, y, hd, hnd, hcs, hplace => by
    rw [List.nodup_cons] at hnd
    rw [Document.insertOwnedAfter]
    obtain ⟨h0, hunder⟩ := hd.own (hcs c List.mem_cons_self).live m
    generalize (if (d.owner? c).isNone then d.setOwner c (some m) else d) = d0 at h0 hunder
    have hplace0 : ∀ {c p}, d0.Placeable c p ↔ d.Placeable c p := by
      simp only [Placeable, hunder, implies_true]
    simp only [← hunder, ← hplace0] at hcs hplace
    have hd0 := h0.steady.wellFormed
    have h0 : Moves (c :: cs) d d0 := h0.mono (by simp)
    have hc := hcs c List.mem_cons_self
    have hcs' := fun b hb => hcs b (List.mem_cons_of_mem c hb)
    rcases hd0.insertAfter_cases (fun _ => hc.live) fun p hp => hplace p hp c List.mem_cons_self with
      h | ⟨p, hy, -, h⟩
    · rw [h]
      refine h0.trans ((WellFormed.insertOwnedAfter hd0 hnd.2 hcs' fun p hp b hb => ?_).mono
        fun b => List.mem_cons_of_mem c)
      obtain rfl := hp.unique hc
      exact (hcs' b hb).placeable hd0
    · have hcp := hplace p hy c List.mem_cons_self
      have h1 := h.moves hd0 hc.live hcp
      have hcs1 : ∀ b ∈ cs, Under _ b F := fun b hb =>
        (h.under_iff hc.live).mpr (.inr ⟨fun hbc => hnd.1 (hbc ▸ hb), hcs' b hb⟩)
      refine h0.trans ((h1.mono (by simp)).trans
        ((WellFormed.insertOwnedAfter h1.steady.wellFormed hnd.2 hcs1 fun q hq b hb => ?_).mono
          fun b => List.mem_cons_of_mem c))
      rcases (h.under_iff hc.live).mp hq with ⟨-, rfl⟩ | ⟨hne, -⟩
      · exact h.placeable hc.live hcp (hplace _ hy b (List.mem_cons_of_mem c hb))
      · exact absurd rfl hne

/-- Nodes that may be placed below a node are moved there one after the other. -/
theorem WellFormed.appendAll : ∀ {cs : List NodeId} {d : Document}, d.WellFormed → d.Issued p →
    (∀ c ∈ cs, d.Live c ∧ d.Placeable c p) →
      Moves cs d (cs.foldl (fun d c => d.appendChild p c) d)
  | [], d, hd, _, _ => .refl hd _
  | c :: cs, d, hd, hp, hcs => by
    obtain ⟨hc, hcp⟩ := hcs c List.mem_cons_self
    have hcs' := fun b hb => hcs b (List.mem_cons_of_mem c hb)
    rw [List.foldl_cons]
    by_cases hcontains : d.contains p = true
    · have h := hd.appendChild hc (hp.finds hcontains) hcp.ne
      have h1 := h.moves hd hc hcp
      refine (h1.mono (by simp)).trans ((WellFormed.appendAll h1.steady.wellFormed (hp.grown h1.grown)
        fun b hb => ⟨h.live_iff.mpr (hcs' b hb).1, h.placeable hc hcp (hcs' b hb).2⟩).mono
          fun b => List.mem_cons_of_mem c)
    · have hself : d.appendChild p c = d := by
        unfold Document.appendChild
        rw [if_neg (by simp [hcontains])]
      rw [hself]
      exact (WellFormed.appendAll hd hp hcs').mono fun b => List.mem_cons_of_mem c

theorem WellFormed.steady_releaseFragment (hd : d.WellFormed) (hc : d.Finds c) :
    Steady d (d.releaseFragment c) ∧ ∀ A, Closed A d → c ∉ A → Keeps A d (d.releaseFragment c) := by
  unfold Document.releaseFragment
  split
  · refine ⟨hd.steady_remove hc, fun A hA hcA => ?_⟩
    rcases hd.remove_cases hc with h | ⟨-, h⟩
    · rw [h]
      exact .refl A d
    · refine h.keeps fun x hx ⟨a, ha, hxa⟩ => hcA ?_
      obtain rfl := List.mem_singleton.mp ha
      exact hA.above hx (hd.under_of_below hxa)
  · exact ⟨.refl hd, fun A _ _ => .refl A d⟩

/-- The children of a node go elsewhere, and the node is given up if it is an empty fragment. -/
theorem Moves.thenRelease (h : Moves (d.children c) d d') (hd : d.WellFormed) (hc : d.Issued c) :
    Steady d (d'.releaseFragment c) ∧
      ∀ A, Closed A d → c ∉ A → Keeps A d (d'.releaseFragment c) := by
  obtain ⟨h1, hkeeps⟩ := h.steady.wellFormed.steady_releaseFragment (hc.grown h.grown).finds
  refine ⟨h.steady.trans h1, fun A hA hcA => ?_⟩
  have hkeep := h.keeps A fun x hx hxA =>
    hcA (hA.parent hxA (hd.child (hd.mem_children_iff.mp hx)))
  exact hkeep.trans (hkeeps A (hkeep.closed hA) hcA)

theorem WellFormed.steady_insertOwned (hd : d.WellFormed) (hc : d.Issued c)
    (hplace : ∀ p, d.Under y p → ∀ b ∈ d.children c, d.Placeable b p) :
    Steady d (d.insertOwned y c).2 ∧
      ∀ A, Closed A d → c ∉ A → Keeps A d (d.insertOwned y c).2 :=
  (WellFormed.insertOwnedAfter hd (hd.nodup_children c)
    (fun _ hb => hd.child (hd.mem_children_iff.mp hb)) hplace).thenRelease hd hc

theorem WellFormed.closed_live (hd : d.WellFormed) : Closed {x | d.Live x} d :=
  ⟨fun _ => id, fun _ hp => let ⟨s, hs, _⟩ := hd.parent hp; ⟨s, hs⟩⟩

/-- What stands below a node that is new may be placed below any node that is old. -/
theorem placeable_of_new {d0 : Document} (hd0 : d0.WellFormed) (hd : d.WellFormed)
    (hkeep : Keeps {x | d0.Live x} d0 d) (hc : ¬ d0.Live c) (hp : d0.Live p) {b : NodeId}
    (hb : b ∈ d.children c) : d.Placeable b p := by
  have hA := hkeep.closed hd0.closed_live
  have hbc := hd.child (hd.mem_children_iff.mp hb)
  exact ⟨hbc.ne_root hd, fun hpb => hc (hA.parent (hA.above hp hpb) hbc)⟩

theorem WellFormed.steady_appendFragment (hd : d.WellFormed) (hp : d.Issued p) (hc : d.Issued c)
    (hplace : ∀ b ∈ d.children c, d.Placeable b p) :
    Steady d (d.appendFragment p c) ∧
      ∀ A, Closed A d → c ∉ A → Keeps A d (d.appendFragment p c) :=
  (WellFormed.appendAll hd hp fun b hb =>
    ⟨(hd.child (hd.mem_children_iff.mp hb)).live, hplace b hb⟩).thenRelease hd hc

end LiveMarkup.Document
