import Mathlib.Data.List.Nodup
import Mathlib.Data.List.InsertIdx
import Mathlib.Order.Nat
import LiveMarkup.Document.Graft
import LiveMarkup.Document.Owned

/-!
# What a document holds

A document is seen as a map from indices to the slots in use (`used?`).  Each operation is described
by what it does to this map: which slots are given up and which are taken (`Swapped`), and how often
a slot was freed on the way (`Aged`).  A handle to a node that was freed finds nothing as long as its
slot was freed less than `generations` times (`Aged.slot?_eq_none`).
-/

namespace LiveMarkup.Document

/-- What the slot with an index holds, unless it is free. -/
def used? (d : Document) (i : Nat) : Option Slot :=
  if i ∈ d.free then none else d.slots[i]?

/-- Free slots are listed once, and no generation is out of range. -/
structure Sound (d : Document) : Prop where
  nodup : d.free.Nodup
  bounds : ∀ i ∈ d.free, i < d.slots.size
  generations : ∀ (i : Nat) (s : Slot), d.slots[i]? = some s → s.generation < generations

/-- A handle names a node that is kept in a given slot. -/
def Holds (d : Document) (id : NodeId) (s : Slot) : Prop :=
  d.used? id.index = some s ∧ s.generation = id.generation

/-- The slots at `A` were given up for the slots at `B`, and no other slot has changed. -/
structure Swapped (A B : List Nat) (d d' : Document) : Prop where
  sound : d.Sound → d'.Sound
  frame : ∀ i, i ∉ A → i ∉ B → d'.used? i = d.used? i
  fresh : ∀ i ∈ B, i ∈ A ∨ d.used? i = none
  gone : ∀ i ∈ A, i ∈ B ∨ d'.used? i = none

/-- Each slot was freed as often as two bounds say. -/
def Aged (lo hi : Nat → Nat) (d d' : Document) : Prop :=
  ∀ (i : Nat) (s : Slot), d.slots[i]? = some s → ∃ k s', lo i ≤ k ∧ k ≤ hi i ∧
    d'.slots[i]? = some s' ∧ s'.generation = (s.generation + k) % generations

/-- One for the members of a list, and zero for all others. -/
def once (A : List Nat) (i : Nat) : Nat :=
  if i ∈ A then 1 else 0

variable {d d' d'' : Document} {id id' p q : NodeId} {s s' : Slot} {A B C : List Nat} {i : Nat}

theorem lt_of_used? (h : d.used? i = some s) : i < d.slots.size := by
  unfold used? at h
  split at h
  · cases h
  · exact (Array.getElem?_eq_some_iff.mp h).1

theorem slots_of_used? (h : d.used? i = some s) : d.slots[i]? = some s := by
  unfold used? at h
  split at h
  · cases h
  · exact h

namespace Holds

theorem slot?_eq (h : d.Holds id s) : d.slot? id = some s := by
  unfold slot?
  rw [slots_of_used? h.1, Option.filter_some, if_pos (by simpa using h.2)]

theorem contains_eq (h : d.Holds id s) : d.contains id = true := by
  rw [contains, h.slot?_eq, Option.isSome_some]

theorem data_eq (h : d.Holds id s) : d.data id = s.data := by
  rw [data, h.slot?_eq, Option.map_some, Option.getD_some]

theorem parent?_eq (h : d.Holds id s) : d.parent? id = s.parent := by
  rw [parent?, h.slot?_eq, Option.bind_some]

theorem children_eq (h : d.Holds id s) : d.children id = s.children := by
  rw [children, h.slot?_eq, Option.map_some, Option.getD_some]

theorem owner?_eq (h : d.Holds id s) : d.owner? id = s.owner := by
  rw [owner?, h.slot?_eq, Option.bind_some]

theorem unique (h : d.Holds id s) (h' : d.Holds id s') : s = s' :=
  Option.some.inj (h.1.symm.trans h'.1)

/-- Live nodes are told apart by their slots. -/
theorem eq_of_index_eq (h : d.Holds id s) (h' : d.Holds id' s') (hi : id.index = id'.index) :
    id = id' := by
  have hs : s = s' := Option.some.inj (h.1.symm.trans (hi ▸ h'.1))
  obtain ⟨i, g⟩ := id
  obtain ⟨i', g'⟩ := id'
  obtain rfl : i = i' := hi
  obtain rfl : g = g' := h.2.symm.trans ((congrArg Slot.generation hs).trans h'.2)
  rfl

end Holds

/-! ## Exchanging slots -/

namespace Swapped

theorem refl (A : List Nat) (d : Document) : Swapped A A d d :=
  ⟨fun h => h, fun _ _ _ => rfl, fun _ h => .inl h, fun _ h => .inl h⟩

theorem trans (h : Swapped A B d d') (h' : Swapped B C d' d'') : Swapped A C d d'' where
  sound hd := h'.sound (h.sound hd)
  frame i hA hC := by
    by_cases hB : i ∈ B
    · have h0 := (h.fresh i hB).resolve_left hA
      rw [h0, (h'.gone i hB).resolve_left hC]
    · rw [h'.frame i hB hC, h.frame i hA hB]
  fresh i hC := by
    rcases h'.fresh i hC with hB | h0
    · exact h.fresh i hB
    · by_cases hA : i ∈ A
      · exact .inl hA
      · by_cases hB : i ∈ B
        · exact h.fresh i hB
        · exact .inr (h.frame i hA hB ▸ h0)
  gone i hA := by
    by_cases hC : i ∈ C
    · exact .inl hC
    · rcases h.gone i hA with hB | h0
      · exact h'.gone i hB
      · by_cases hB : i ∈ B
        · exact h'.gone i hB
        · exact .inr (h'.frame i hB hC ▸ h0)

/-- Only which slots are named counts, and more of them may be named than are exchanged. -/
theorem weaken {X Y : List Nat} (h : Swapped A B d d') (hA : ∀ i ∈ A, i ∈ X)
    (hB : ∀ i ∈ B, i ∈ Y) (hX : ∀ i ∈ X, i ∈ A ∨ i ∈ Y) (hY : ∀ i ∈ Y, i ∈ B ∨ i ∈ X) :
    Swapped X Y d d' where
  sound := h.sound
  frame i hiX hiY := h.frame i (fun hi => hiX (hA i hi)) fun hi => hiY (hB i hi)
  fresh i hi := by
    rcases hY i hi with hi | hi
    · exact (h.fresh i hi).imp_left (hA i)
    · exact .inl hi
  gone i hi := by
    rcases hX i hi with hi | hi
    · exact (h.gone i hi).imp_left (hB i)
    · exact .inl hi

/-- More slots on both sides. -/
theorem extend (h : Swapped A B d d') (C : List Nat) : Swapped (A ++ C) (B ++ C) d d' := by
  refine h.weaken (fun i hi => List.mem_append_left C hi) (fun i hi => List.mem_append_left C hi)
    (fun i hi => ?_) fun i hi => ?_
  · exact (List.mem_append.mp hi).imp_right (List.mem_append_right B)
  · exact (List.mem_append.mp hi).imp_right (List.mem_append_right A)

/-- More slots that keep their place. -/
theorem grow {X : List Nat} (h : Swapped A A d d') (hA : ∀ i ∈ A, i ∈ X) : Swapped X X d d' :=
  h.weaken hA hA (fun _ hi => .inr hi) fun _ hi => .inr hi

theorem perm {X Y : List Nat} (h : Swapped A B d d') (hA : A.Perm X) (hB : B.Perm Y) :
    Swapped X Y d d' :=
  h.weaken (fun _ => hA.mem_iff.mp) (fun _ => hB.mem_iff.mp) (fun _ hi => .inl (hA.mem_iff.mpr hi))
    fun _ hi => .inl (hB.mem_iff.mpr hi)

/-- A slot in use that is not given up is not taken either. -/
theorem not_mem_of_used (h : Swapped A B d d') (hi : d.used? i = some s) (hA : i ∉ A) : i ∉ B :=
  fun hB => by
    rw [(h.fresh i hB).resolve_left hA] at hi
    cases hi

theorem used?_eq (h : Swapped A B d d') (hi : d.used? i = some s) (hA : i ∉ A) :
    d'.used? i = some s :=
  (h.frame i hA (h.not_mem_of_used hi hA)).trans hi

theorem holds (h : Swapped A B d d') (hs : d.Holds id s) (hA : id.index ∉ A) : d'.Holds id s :=
  ⟨h.used?_eq hs.1 hA, hs.2⟩

end Swapped

/-! ## Stale handles -/

namespace Aged

variable {lo hi lo' hi' : Nat → Nat}

theorem refl (hd : d.Sound) : Aged (fun _ => 0) (fun _ => 0) d d := fun i s hs =>
  ⟨0, s, le_rfl, le_rfl, hs, (Nat.mod_eq_of_lt (hd.generations i s hs)).symm⟩

theorem trans (h : Aged lo hi d d') (h' : Aged lo' hi' d' d'') :
    Aged (fun i => lo i + lo' i) (fun i => hi i + hi' i) d d'' := by
  intro i s hs
  obtain ⟨k, s', hlo, hhi, hs', hg⟩ := h i s hs
  obtain ⟨k', s'', hlo', hhi', hs'', hg'⟩ := h' i s' hs'
  refine ⟨k + k', s'', Nat.add_le_add hlo hlo', Nat.add_le_add hhi hhi', hs'', ?_⟩
  rw [hg', hg, Nat.mod_add_mod, Nat.add_assoc]

theorem mono (h : Aged lo hi d d') (hlo : ∀ i, lo' i ≤ lo i) (hhi : ∀ i, hi i ≤ hi' i) :
    Aged lo' hi' d d' := by
  intro i s hs
  obtain ⟨k, s', hk, hk', hs', hg⟩ := h i s hs
  exact ⟨k, s', (hlo i).trans hk, hk'.trans (hhi i), hs', hg⟩

/-- A handle to a node that was freed finds nothing. -/
theorem slot?_eq_none (h : Aged lo hi d d') (hs : d.Holds id s) (hd : d.Sound)
    (hlo : 0 < lo id.index) (hhi : hi id.index < generations) : d'.slot? id = none := by
  obtain ⟨k, s', hk, hk', hs', hg⟩ := h _ _ (slots_of_used? hs.1)
  have hlt := hd.generations _ _ (slots_of_used? hs.1)
  unfold slot?
  rw [hs', Option.filter_some, if_neg]
  rw [decide_eq_true_eq, ← hs.2, hg]
  intro heq
  rcases Nat.lt_or_ge (s.generation + k) generations with h1 | h1
  · rw [Nat.mod_eq_of_lt h1] at heq
    omega
  · rw [Nat.mod_eq_sub_mod h1, Nat.mod_eq_of_lt (by omega)] at heq
    omega

end Aged

@[simp] theorem once_nil (i : Nat) : once [] i = 0 := by
  simp [once]

theorem once_eq_one (h : i ∈ A) : once A i = 1 := by
  rw [once, if_pos h]

theorem once_le_one (A : List Nat) (i : Nat) : once A i ≤ 1 := by
  unfold once
  split <;> omega

theorem once_mono (h : ∀ i ∈ A, i ∈ B) (i : Nat) : once A i ≤ once B i := by
  unfold once
  by_cases hi : i ∈ A
  · rw [if_pos hi, if_pos (h i hi)]
  · rw [if_neg hi]
    exact Nat.zero_le _

theorem once_append (h : A.Disjoint B) (i : Nat) : once (A ++ B) i = once A i + once B i := by
  unfold once
  by_cases hA : i ∈ A
  · rw [if_pos (List.mem_append_left B hA), if_pos hA, if_neg (h hA)]
  · by_cases hB : i ∈ B
    · rw [if_pos (List.mem_append_right A hB), if_neg hA, if_pos hB]
    · rw [if_neg (by simp [hA, hB]), if_neg hA, if_neg hB]

end LiveMarkup.Document
