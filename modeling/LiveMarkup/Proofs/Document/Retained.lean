import Mathlib.Data.Set.Basic
import LiveMarkup.Proofs.Document.Operations

/-!
# Nodes that are moved remain what they are

Whatever is moved, owned or removed, each node that is there afterwards was there before, it is what
it was, and it has got no other owner than those that are said (`Retains`).
-/

namespace LiveMarkup.Document

/-- Every node was there before, was what it is, and had its owner unless this is a new one. -/
def Retains (new : Set NodeId) (d d' : Document) : Prop :=
  ∀ x t, d'.Holds x t → ∃ s, d.Holds x s ∧ s.data = t.data ∧
    ∀ w, t.owner = some w → s.owner = some w ∨ w ∈ new

namespace Retains

variable {new new' : Set NodeId} {d d' d'' : Document}

theorem refl (d : Document) : Retains new d d := fun _ t ht => ⟨t, ht, rfl, fun _ hw => .inl hw⟩

theorem trans (h : Retains new d d') (h' : Retains new d' d'') : Retains new d d'' := fun x t ht => by
  obtain ⟨s', hs', hdata', howner'⟩ := h' x t ht
  obtain ⟨s, hs, hdata, howner⟩ := h x s' hs'
  exact ⟨s, hs, hdata.trans hdata', fun w hw => (howner' w hw).elim (howner w) .inr⟩

theorem mono (h : Retains new d d') (hnew : new ⊆ new') : Retains new' d d' := fun x t ht => by
  obtain ⟨s, hs, hdata, howner⟩ := h x t ht
  exact ⟨s, hs, hdata, fun w hw => (howner w hw).imp_right fun hmem => hnew hmem⟩

theorem foldl {α : Type} {step : Document → α → Document} (h : ∀ d x, Retains new d (step d x)) :
    ∀ (xs : List α) (d : Document), Retains new d (xs.foldl step d)
  | [], d => refl d
  | x :: xs, d => (h d x).trans (foldl h xs (step d x))

end Retains

theorem retains_update {new : Set NodeId} {f : Slot → Slot}
    (hgen : ∀ s, (f s).generation = s.generation) (hdata : ∀ s, (f s).data = s.data)
    (howner : ∀ s w, (f s).owner = some w → s.owner = some w ∨ w ∈ new) (d : Document) (c : NodeId) :
    Retains new d (d.update c f) := by
  intro x t ht
  obtain ⟨hused, hgen'⟩ := ht
  have hfree : x.index ∉ d.free := fun hmem => by
    rw [used?, free_update, if_pos hmem] at hused
    cases hused
  rw [used?, free_update, if_neg hfree] at hused
  have hself : ∀ {s : Slot}, d.slots[x.index]? = some s → s.generation = x.generation →
      d.Holds x s := fun hs hx => ⟨by rw [used?, if_neg hfree, hs], hx⟩
  unfold update at hused
  split at hused
  · rw [Array.getElem?_modify] at hused
    split at hused
    · obtain ⟨s, hs, rfl⟩ := Option.map_eq_some_iff.mp hused
      exact ⟨s, hself hs ((hgen s).symm.trans hgen'), (hdata s).symm, howner s⟩
    · exact ⟨t, hself hused hgen', rfl, fun _ hw => .inl hw⟩
  · exact ⟨t, hself hused hgen', rfl, fun _ hw => .inl hw⟩

/-- Links are written. -/
theorem Retains.update {new : Set NodeId} {d d' : Document} (h : Retains new d d') (c : NodeId)
    {f : Slot → Slot} (hgen : ∀ s, (f s).generation = s.generation) (hdata : ∀ s, (f s).data = s.data)
    (howner : ∀ s, (f s).owner = s.owner) : Retains new d (d'.update c f) :=
  h.trans (retains_update hgen hdata (fun s _ hw => .inl (howner s ▸ hw)) d' c)

theorem retains_setOwner (d : Document) (c : NodeId) (owner : Option NodeId) :
    Retains {w | owner = some w} d (d.setOwner c owner) :=
  retains_update (f := fun s => { s with owner }) (fun _ => rfl) (fun _ => rfl)
    (fun _ _ hw => .inr hw) d c

theorem retains_detach (d : Document) (c : NodeId) : Retains ∅ d (d.detach c) := by
  unfold detach
  split
  · exact .refl d
  · refine ((Retains.refl d).update c ?_ ?_ ?_).update _ ?_ ?_ ?_ <;> exact fun _ => rfl

theorem retains_appendChild (d : Document) (p c : NodeId) : Retains ∅ d (d.appendChild p c) := by
  unfold appendChild
  split
  · refine ((retains_detach d c).update c ?_ ?_ ?_).update p ?_ ?_ ?_ <;> exact fun _ => rfl
  · exact .refl d

theorem retains_insertAfter (d : Document) (r c : NodeId) : Retains ∅ d (d.insertAfter r c).2 := by
  unfold insertAfter
  split
  · exact .refl d
  · split
    · exact .refl d
    · refine ((retains_detach d c).update c ?_ ?_ ?_).update _ ?_ ?_ ?_ <;> exact fun _ => rfl

theorem retains_freeSlot (d : Document) (c : NodeId) : Retains ∅ d (d.freeSlot c) := by
  unfold freeSlot
  split
  · rintro x t ⟨hused, hgen⟩
    rw [used?] at hused
    split at hused
    · cases hused
    · rename_i hfree
      rw [List.mem_cons, not_or] at hfree
      rw [Array.getElem?_modify, if_neg (Ne.symm hfree.1)] at hused
      exact ⟨t, ⟨by rw [used?, if_neg hfree.2, hused], hgen⟩, rfl, fun _ hw => .inl hw⟩
  · exact .refl d

theorem retains_remove (d : Document) (c : NodeId) : Retains ∅ d (d.remove c) := by
  unfold remove
  split
  · exact .refl d
  · exact (retains_detach d c).trans (.foldl retains_freeSlot _ _)

theorem retains_releaseFragment (d : Document) (c : NodeId) : Retains ∅ d (d.releaseFragment c) := by
  unfold releaseFragment
  split
  · exact retains_remove d c
  · exact .refl d

theorem retains_removeChildren (d : Document) (c : NodeId) : Retains ∅ d (d.removeChildren c) := by
  unfold removeChildren
  refine Retains.trans ?_ (.foldl (fun d b => ?_) _ _)
  · refine (Retains.refl d).update c ?_ ?_ ?_ <;> exact fun _ => rfl
  · exact .foldl retains_freeSlot _ _

theorem retains_clearAmong : ∀ (cs owners : List NodeId) (d : Document),
    Retains ∅ d (d.clearAmong owners cs).2
  | [], _, d => .refl d
  | c :: cs, owners, d => by
    rw [clearAmong]
    split
    · exact (retains_remove d c).trans (retains_clearAmong cs (c :: owners) (d.remove c))
    · exact retains_clearAmong cs owners d

theorem retains_clearOwned (d : Document) (m : NodeId) : Retains ∅ d (d.clearOwned m).2 :=
  retains_clearAmong _ _ d

theorem retains_insertOwnedAfter (m : NodeId) : ∀ (cs : List NodeId) (d : Document) (anchor : NodeId),
    Retains {m} d (d.insertOwnedAfter m anchor cs)
  | [], d, _ => .refl d
  | c :: cs, d, anchor => by
    rw [insertOwnedAfter]
    have howned : Retains {m} d (if (d.owner? c).isNone then d.setOwner c (some m) else d) := by
      split
      · refine (retains_setOwner d c (some m)).mono fun w hw => ?_
        exact (Option.some.inj hw).symm
      · exact .refl d
    have hmoved := (retains_insertAfter (if (d.owner? c).isNone then d.setOwner c (some m) else d)
      anchor c).mono (Set.empty_subset {m})
    exact (howned.trans hmoved).trans (retains_insertOwnedAfter m cs _ c)

theorem retains_insertOwned (d : Document) (m c : NodeId) : Retains {m} d (d.insertOwned m c).2 :=
  (retains_insertOwnedAfter m _ d m).trans
    ((retains_releaseFragment _ c).mono (Set.empty_subset {m}))

theorem retains_appendFragment (d : Document) (p c : NodeId) : Retains ∅ d (d.appendFragment p c) :=
  (Retains.foldl (fun d b => retains_appendChild d p b) _ d).trans (retains_releaseFragment _ c)

end LiveMarkup.Document
