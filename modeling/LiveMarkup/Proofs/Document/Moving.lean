import Mathlib.Logic.Function.Basic
import LiveMarkup.Proofs.Document.Precedence

/-!
# Where moved nodes stand

A node that is moved leaves the list in which it stands, and goes to the end of another one or right
after another node; a node that is detached only leaves its list (`Relinked`).  The nodes stay the
same, with what they are and what owns them (`SameNodes`).
-/

namespace LiveMarkup.Document

variable {d d' d'' : Document} {x c r p q : NodeId} {f : Slot → Slot}

/-- The children of a node without one that is taken from its parent. -/
def withoutChild (d : Document) (c x : NodeId) : List NodeId :=
  if d.parent? c = some x then (d.children x).erase c else d.children x

/-- The nodes are the same: none was made or freed, and they are what they were and have the owners
that they had. -/
structure SameNodes (d d' : Document) : Prop where
  free : d'.free = d.free
  capacity : d'.capacity = d.capacity
  contains : ∀ x, d'.contains x = d.contains x
  data : ∀ x, d'.data x = d.data x
  owner : ∀ x, d'.owner? x = d.owner? x

/-- One node has the given parent, all nodes have the given children, and all else is as it was. -/
structure Relinked (c : NodeId) (parent : Option NodeId) (children : NodeId → List NodeId)
    (d d' : Document) : Prop extends SameNodes d d' where
  parent : d'.parent? c = parent
  parents : ∀ x, x ≠ c → d'.parent? x = d.parent? x
  children : ∀ x, d'.children x = children x

namespace SameNodes

theorem refl (d : Document) : SameNodes d d :=
  ⟨rfl, rfl, fun _ => rfl, fun _ => rfl, fun _ => rfl⟩

theorem trans (h : SameNodes d d') (h' : SameNodes d' d'') : SameNodes d d'' where
  free := h'.free.trans h.free
  capacity := h'.capacity.trans h.capacity
  contains x := (h'.contains x).trans (h.contains x)
  data x := (h'.data x).trans (h.data x)
  owner x := (h'.owner x).trans (h.owner x)

/-- Links are written into a node. -/
theorem update (h : SameNodes d d') (c : NodeId) (hgen : ∀ s, (f s).generation = s.generation)
    (hdata : ∀ s, (f s).data = s.data) (howner : ∀ s, (f s).owner = s.owner) :
    SameNodes d (d'.update c f) := by
  refine h.trans ⟨free_update, size_update, fun x => ?_, fun x => ?_, fun x => ?_⟩
  · rw [Document.contains, slot?_update hgen, Option.isSome_map, Document.contains]
  · rw [Document.data, slot?_update hgen, Document.data]
    rcases d'.slot? x with _ | s
    · rfl
    · simp only [Option.map_some, Option.getD_some]
      split_ifs
      exacts [hdata s, rfl]
  · rw [owner?, slot?_update hgen, owner?]
    rcases d'.slot? x with _ | s
    · rfl
    · simp only [Option.map_some, Option.bind_some]
      split_ifs
      exacts [howner s, rfl]

end SameNodes

theorem sameNodes_detach (d : Document) (c : NodeId) : SameNodes d (d.detach c) := by
  unfold detach
  split
  · exact .refl d
  · refine ((SameNodes.refl d).update c ?_ ?_ ?_).update _ ?_ ?_ ?_ <;> exact fun _ => rfl

theorem sameNodes_appendChild (d : Document) (p c : NodeId) : SameNodes d (d.appendChild p c) := by
  unfold appendChild
  split
  · refine ((sameNodes_detach d c).update c ?_ ?_ ?_).update p ?_ ?_ ?_ <;> exact fun _ => rfl
  · exact .refl d

theorem sameNodes_insertAfter (d : Document) (r c : NodeId) :
    SameNodes d (d.insertAfter r c).2 := by
  unfold insertAfter
  split
  · exact .refl d
  · split
    · exact .refl d
    · refine ((sameNodes_detach d c).update c ?_ ?_ ?_).update _ ?_ ?_ ?_ <;> exact fun _ => rfl

/-- A node is moved just if it is live and goes after another one that has a parent. -/
theorem insertAfter_eq_false_iff : (d.insertAfter r c).1 = false ↔
    d.contains c = false ∨ r = c ∨ d.parent? r = none := by
  unfold insertAfter
  split
  · rename_i h
    simp only [Bool.or_eq_true, decide_eq_true_eq, Bool.not_eq_true'] at h
    exact iff_of_true rfl (h.elim (fun h => .inr (.inl h)) .inl)
  · rename_i h
    simp only [Bool.or_eq_true, decide_eq_true_eq, Bool.not_eq_true', not_or] at h
    split
    · rename_i hparent
      exact iff_of_true rfl (.inr (.inr hparent))
    · rename_i q hparent
      simp [h, hparent]

theorem insertAfter_of_eq_false (h : (d.insertAfter r c).1 = false) : (d.insertAfter r c).2 = d := by
  unfold insertAfter at h ⊢
  split
  · rfl
  · rename_i hmove
    rw [if_neg hmove] at h
    split
    · rfl
    · rename_i q hparent
      rw [hparent] at h
      cases h

/-! ## Links -/

/-- A parent is found by the links. -/
theorem Downward.parent?_eq (hd : d.Downward) {o : Option NodeId} (h : ∀ q, d.Under x q ↔ o = some q) :
    d.parent? x = o :=
  Option.ext fun q => hd.parent?_eq_some_iff.trans (h q)

theorem WellFormed.withoutChild_eq (hd : d.WellFormed) (c x : NodeId) :
    d.withoutChild c x = (d.children x).filter (· ≠ c) := by
  unfold withoutChild
  split
  · rw [(hd.nodup_children x).erase_eq_filter]
    exact List.filter_congr fun y _ => by simp [bne, beq_eq_decide]
  · rename_i hparent
    refine (List.filter_eq_self.mpr fun y hy => decide_eq_true ?_).symm
    rintro rfl
    exact hparent (hd.parent?_eq_some_iff.mpr (hd.mem_children.mp hy))

/-- A moved node is linked to its new parent, and to no other. -/
theorem Moved.relinked (h : Moved c p d d') (hd : d.WellFormed) (hc : d.Live c)
    (hplace : d.Placeable c p) (hnodes : SameNodes d d') {K : List NodeId} (hK : d'.children p = K) :
    Relinked c (some p) (Function.update (d.withoutChild c) p K) d d' := by
  have hd' := (h.steady hd hc hplace).wellFormed
  refine ⟨hnodes, hd'.parent?_eq fun q => ?_, fun x hx => hd'.parent?_eq fun q => ?_, fun x => ?_⟩
  · rw [h.under_iff hc, Option.some_inj]
    simp [eq_comm]
  · rw [h.under_iff hc, hd.parent?_eq_some_iff]
    simp [hx]
  · by_cases hx : x = p
    · rw [hx, Function.update_self, hK]
    · rw [Function.update_of_ne hx, hd.withoutChild_eq, h.children_eq hd hd' hx]

theorem WellFormed.relinked_appendChild (hd : d.WellFormed) (hp : d.Live p) (hc : d.Live c)
    (hplace : d.Placeable c p) :
    Relinked c (some p) (Function.update (d.withoutChild c) p (d.withoutChild c p ++ [c])) d
      (d.appendChild p c) := by
  refine (hd.appendChild hc hp hplace.ne).relinked hd hc hplace (sameNodes_appendChild d p c) ?_
  rw [hd.withoutChild_eq, hd.children_appendChild hc hp hplace.ne]

/-- What may be placed after a node may be placed below its parent. -/
theorem Placeable.parent (h : d.Placeable c r) (hr : d.Under r q) : d.Placeable c q :=
  ⟨h.1, fun hq => h.2 (.head hr hq)⟩

theorem WellFormed.relinked_insertAfter (hd : d.WellFormed) (hc : d.Live c)
    (hr : d.parent? r = some q) (hplace : d.Placeable c r) :
    ∃ L R, d.withoutChild c q = L ++ r :: R ∧
      Relinked c (some q) (Function.update (d.withoutChild c) q (L ++ r :: c :: R)) d
        (d.insertAfter r c).2 := by
  have hr := hd.parent?_eq_some_iff.mp hr
  have hne := hplace.ne.symm
  have hplace := hplace.parent hr
  have hmem : r ∈ d.withoutChild c q := by
    rw [hd.withoutChild_eq, List.mem_filter]
    exact ⟨hd.mem_children.mpr hr, decide_eq_true hne⟩
  obtain ⟨L, R, hLR⟩ := List.append_of_mem hmem
  have hfilter := (hd.withoutChild_eq c q).symm.trans hLR
  exact ⟨L, R, hLR, (hd.insertAfter hc hr hne hplace.ne).relinked hd hc hplace
    (sameNodes_insertAfter d r c) (hd.children_insertAfter_of_filter hc hr hne hplace.ne hfilter)⟩

theorem WellFormed.relinked_detach (hd : d.WellFormed) (c : NodeId) :
    Relinked c none (d.withoutChild c) d (d.detach c) := by
  have h := hd.detach c
  have hd' := (hd.steady_detach c).wellFormed
  have hunder : ∀ {x q}, (d.detach c).Under x q ↔ x ≠ c ∧ d.Under x q := fun {x q} => by
    constructor
    · rintro ⟨t, ht, hq⟩
      obtain ⟨s, hs, rfl⟩ := (h.holds x t).mp ht
      by_cases hx : x = c
      · simp [unlinked, hx] at hq
      · exact ⟨hx, s, hs, by simpa [unlinked, hx] using hq⟩
    · rintro ⟨hx, s, hs, hq⟩
      exact ⟨_, h.holds_of hs, by simpa [unlinked, hx] using hq⟩
  refine ⟨sameNodes_detach d c, hd'.parent?_eq fun q => ?_, fun x hx => hd'.parent?_eq fun q => ?_,
    fun x => ?_⟩
  · simp [hunder]
  · simp [hunder, hx, hd.parent?_eq_some_iff]
  · rw [hd.withoutChild_eq]
    by_cases hx : d.Live x
    · obtain ⟨s, hs⟩ := hx
      rw [(h.holds_of hs).children_eq, hs.children_eq]
      rfl
    · rw [hd.children_of_not_live hx, hd'.children_of_not_live (h.live_iff.not.mpr hx)]
      rfl

/-- A node that is moved goes from the list of its old parent to the end of a node's list, or to the
place right after another node, beside which it may have stood before; a node that is detached only
leaves its list.  Nothing else changes.  A node is not moved after another one just if it is gone, or
the other one is the node itself or has no parent, and then nothing changes at all. -/
theorem relinked_of_move (hd : d.WellFormed) :
    (∀ p c, d.Live p → d.Live c → d.Placeable c p →
      Relinked c (some p) (Function.update (d.withoutChild c) p (d.withoutChild c p ++ [c])) d
        (d.appendChild p c)) ∧
      (∀ r c q, d.Live c → d.parent? r = some q → d.Placeable c r →
        (d.insertAfter r c).1 = true ∧ ∃ L R, d.withoutChild c q = L ++ r :: R ∧
          Relinked c (some q) (Function.update (d.withoutChild c) q (L ++ r :: c :: R)) d
            (d.insertAfter r c).2) ∧
      (∀ c, Relinked c none (d.withoutChild c) d (d.detach c)) ∧
      ∀ r c, ((d.insertAfter r c).1 = false ↔
          d.contains c = false ∨ r = c ∨ d.parent? r = none) ∧
        ((d.insertAfter r c).1 = false → (d.insertAfter r c).2 = d) := by
  refine ⟨fun p c => hd.relinked_appendChild, fun r c q hc hr hplace => ⟨?_, ?_⟩,
    hd.relinked_detach, fun r c => ⟨insertAfter_eq_false_iff, insertAfter_of_eq_false⟩⟩
  · rw [← Bool.not_eq_false, insertAfter_eq_false_iff]
    simp [hc.contains, hplace.ne.symm, hr]
  · exact hd.relinked_insertAfter hc hr hplace

/-- The first of three siblings goes after the second one, and then into the third one. -/
theorem relinked_of_move_siblings :
    (parse "<a></a><b></b><i></i>".toList).WellFormed ∧
      (parse "<a></a><b></b><i></i>".toList).Live ⟨1, 0⟩ ∧
      (parse "<a></a><b></b><i></i>".toList).Live ⟨3, 0⟩ ∧
      (parse "<a></a><b></b><i></i>".toList).parent? ⟨2, 0⟩ = some root ∧
      (parse "<a></a><b></b><i></i>".toList).Placeable ⟨1, 0⟩ ⟨2, 0⟩ ∧
      (parse "<a></a><b></b><i></i>".toList).Placeable ⟨1, 0⟩ ⟨3, 0⟩ ∧
      (∃ L R, [⟨2, 0⟩, ⟨3, 0⟩] = L ++ ⟨2, 0⟩ :: R ∧
        ((parse "<a></a><b></b><i></i>".toList).insertAfter ⟨2, 0⟩ ⟨1, 0⟩).2.children root =
          L ++ ⟨2, 0⟩ :: ⟨1, 0⟩ :: R) ∧
      ((parse "<a></a><b></b><i></i>".toList).appendChild ⟨3, 0⟩ ⟨1, 0⟩).children root =
        [⟨2, 0⟩, ⟨3, 0⟩] ∧
      ((parse "<a></a><b></b><i></i>".toList).appendChild ⟨3, 0⟩ ⟨1, 0⟩).children ⟨3, 0⟩ =
        [⟨1, 0⟩] := by
  have hd := wellFormed_parse "<a></a><b></b><i></i>".toList
  have h1 : (parse "<a></a><b></b><i></i>".toList).Live ⟨1, 0⟩ :=
    live_of_contains (by decide +kernel) (by decide +kernel)
  have h3 : (parse "<a></a><b></b><i></i>".toList).Live ⟨3, 0⟩ :=
    live_of_contains (by decide +kernel) (by decide +kernel)
  have hparent : (parse "<a></a><b></b><i></i>".toList).parent? ⟨2, 0⟩ = some root := by
    decide +kernel
  have hplace2 : (parse "<a></a><b></b><i></i>".toList).Placeable ⟨1, 0⟩ ⟨2, 0⟩ :=
    hd.placeable_iff.mpr (by decide +kernel)
  have hplace3 : (parse "<a></a><b></b><i></i>".toList).Placeable ⟨1, 0⟩ ⟨3, 0⟩ :=
    hd.placeable_iff.mpr (by decide +kernel)
  obtain ⟨happend, hinsert, -, -⟩ := relinked_of_move hd
  obtain ⟨-, L, R, hLR, h⟩ := hinsert _ _ _ h1 hparent hplace2
  have h' := happend _ _ h3 h1 hplace3
  have hroot : (parse "<a></a><b></b><i></i>".toList).withoutChild ⟨1, 0⟩ root =
    [⟨2, 0⟩, ⟨3, 0⟩] := by decide +kernel
  have hthird : (parse "<a></a><b></b><i></i>".toList).withoutChild ⟨1, 0⟩ ⟨3, 0⟩ = [] := by
    decide +kernel
  refine ⟨hd, h1, h3, hparent, hplace2, hplace3, ⟨L, R, hroot.symm.trans hLR, ?_⟩, ?_, ?_⟩
  · rw [h.children, Function.update_self]
  · rw [h'.children, Function.update_of_ne (by decide), hroot]
  · rw [h'.children, Function.update_self, hthird, List.nil_append]

end LiveMarkup.Document
