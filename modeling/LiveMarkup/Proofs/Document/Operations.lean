import LiveMarkup.Proofs.Document.Slots

/-!
# The single operations on documents

Each operation exchanges the slots that it names and changes no others: `update` writes one slot,
`create` takes one, `freeSlot` gives one up.  Moving a node writes its own slot and those of the two
parents (`insertAfter_holds`, `appendChild_holds`).
-/

namespace LiveMarkup.Document

variable {d : Document} {id id' p q : NodeId} {s s' : Slot} {f : Slot → Slot} {i : Nat}

/-! ## Writing one slot -/

theorem not_mem_free (h : d.Holds id s) : id.index ∉ d.free := fun hmem => by
  have hused := h.1
  rw [used?, if_pos hmem] at hused
  cases hused

theorem slots_update (h : d.Holds id s) (i : Nat) :
    (d.update id f).slots[i]? = if i = id.index then some (f s) else d.slots[i]? := by
  unfold update
  rw [if_pos h.contains_eq]
  simp only [Array.getElem?_modify]
  by_cases hi : i = id.index
  · rw [if_pos hi.symm, if_pos hi, hi, slots_of_used? h.1, Option.map_some]
  · rw [if_neg (Ne.symm hi), if_neg hi]

theorem free_update : (d.update id f).free = d.free := by
  unfold update
  split <;> rfl

theorem size_update : (d.update id f).slots.size = d.slots.size := by
  unfold update
  split
  · exact Array.size_modify
  · rfl

/-- The slot of a node after one has been changed. -/
theorem slot?_update {c : NodeId} (hf : ∀ s, (f s).generation = s.generation) (x : NodeId) :
    (d.update c f).slot? x = (d.slot? x).map fun s => if x = c then f s else s := by
  unfold update
  split
  · rename_i hc
    obtain ⟨t, ht⟩ := Option.isSome_iff_exists.mp hc
    obtain ⟨hslot, hgen⟩ := Option.filter_eq_some_iff.mp ht
    rw [slot?, slot?, Array.getElem?_modify]
    by_cases hi : c.index = x.index
    · rw [if_pos hi, ← hi, hslot, Option.map_some, Option.filter_some, Option.filter_some, hf]
      by_cases hx : x = c
      · rw [hx, hgen]
        simp
      · have hne : ¬ t.generation = x.generation := fun h => hx (by
          rw [of_decide_eq_true hgen] at h
          cases x
          cases c
          simp_all)
        simp [hne]
    · have hx : x ≠ c := fun h => hi (h ▸ rfl)
      simp [hi, hx]
  · rename_i hc
    by_cases hx : x = c
    · have hnone : d.slot? c = none := by simpa [contains] using hc
      rw [hx, hnone, Option.map_none]
    · simp [hx]

theorem used?_update (h : d.Holds id s) (i : Nat) :
    (d.update id f).used? i = if i = id.index then some (f s) else d.used? i := by
  unfold used?
  rw [free_update, slots_update h]
  by_cases hi : i = id.index
  · rw [if_pos hi, if_pos hi, if_neg (hi ▸ not_mem_free h)]
  · rw [if_neg hi, if_neg hi]

section

variable (hf : ∀ s, (f s).generation = s.generation)
include hf

theorem Holds.update (h : d.Holds id s) : (d.update id f).Holds id (f s) :=
  ⟨by rw [used?_update h, if_pos rfl], (hf s).trans h.2⟩

theorem Sound.update (hd : d.Sound) (h : d.Holds id s) : (d.update id f).Sound where
  nodup := by rw [free_update]; exact hd.nodup
  bounds i hi := by
    rw [free_update] at hi
    rw [size_update]
    exact hd.bounds i hi
  generations i s' hs' := by
    rw [slots_update h] at hs'
    split at hs'
    · obtain rfl := Option.some.inj hs'
      rw [hf]
      exact hd.generations _ _ (slots_of_used? h.1)
    · exact hd.generations i s' hs'

theorem swapped_update (h : d.Holds id s) : Swapped [id.index] [id.index] d (d.update id f) where
  sound hd := hd.update hf h
  frame i hi _ := by rw [used?_update h, if_neg (by simpa using hi)]
  fresh i hi := .inl hi
  gone i hi := .inl hi

theorem aged_update (hd : d.Sound) (h : d.Holds id s) :
    Aged (fun _ => 0) (fun _ => 0) d (d.update id f) := by
  intro i s' hs'
  have hmod := Nat.mod_eq_of_lt (hd.generations i s' hs')
  by_cases hi : i = id.index
  · have hss : s = s' := Option.some.inj ((slots_of_used? h.1).symm.trans (hi ▸ hs'))
    refine ⟨0, f s, le_rfl, le_rfl, by rw [slots_update h, if_pos hi], ?_⟩
    rw [hf, hss, Nat.add_zero, hmod]
  · exact ⟨0, s', le_rfl, le_rfl, by rw [slots_update h, if_neg hi]; exact hs', hmod.symm⟩

end

theorem Holds.update_of_ne (h : d.Holds id s) (h' : d.Holds id' s') (hne : id'.index ≠ id.index) :
    (d.update id f).Holds id' s' :=
  ⟨by rw [used?_update h, if_neg hne]; exact h'.1, h'.2⟩

/-! ## Taking a slot -/

theorem used?_of_free {free : List Nat} (h : d.free = i :: free) : d.used? i = none := by
  rw [used?, if_pos (by rw [h]; exact List.mem_cons_self)]

/-- A new node stands in a slot that was not in use, and no other slot has changed. -/
theorem create_spec (hd : d.Sound) (data : NodeData) :
    d.used? (d.create data).1.index = none ∧ (d.create data).1.generation < generations ∧
    (d.create data).2.Holds (d.create data).1 { data, generation := (d.create data).1.generation } ∧
    Swapped [] [(d.create data).1.index] d (d.create data).2 ∧
    Aged (fun _ => 0) (fun _ => 0) d (d.create data).2 := by
  unfold create
  rcases hfree : d.free with _ | ⟨i, free⟩
  · have hnone : d.used? d.slots.size = none := by
      rw [used?, hfree]
      simp
    have hused : ∀ i s, (⟨d.slots.push s, []⟩ : Document).used? i =
        if i = d.slots.size then some s else d.used? i := by
      intro i s
      simp only [used?, hfree, List.not_mem_nil, if_false, Array.getElem?_push]
    refine ⟨hnone, by simp [generations], ⟨by rw [hused, if_pos rfl], rfl⟩, ?_, ?_⟩
    · refine ⟨fun _ => ⟨List.nodup_nil, by simp, fun i s hs => ?_⟩, fun i _ hi => ?_,
        fun i hi => ?_, by simp⟩
      · simp only [Array.getElem?_push] at hs
        split at hs
        · obtain rfl := Option.some.inj hs
          simp [generations]
        · exact hd.generations i s hs
      · rw [hused, if_neg (by simpa using hi)]
      · rw [List.mem_singleton.mp hi]
        exact .inr hnone
    · intro i s hs
      have hlt := (Array.getElem?_eq_some_iff.mp hs).1
      refine ⟨0, s, le_rfl, le_rfl, ?_, (Nat.mod_eq_of_lt (hd.generations i s hs)).symm⟩
      rw [Array.getElem?_push, if_neg (by omega)]
      exact hs
  · have hlt : i < d.slots.size := hd.bounds i (hfree ▸ List.mem_cons_self)
    have hnd := hd.nodup
    rw [hfree, List.nodup_cons] at hnd
    have hnone := used?_of_free hfree
    have hgen : (d.slots[i]?.map Slot.generation).getD 0 = d.slots[i].generation := by
      rw [Array.getElem?_eq_getElem hlt]
      rfl
    have hgenlt : d.slots[i].generation < generations :=
      hd.generations i _ (Array.getElem?_eq_getElem hlt)
    have hslots : ∀ j s, (d.slots.setIfInBounds i s)[j]? = if j = i then some s else d.slots[j]? := by
      intro j s
      rw [Array.getElem?_setIfInBounds]
      by_cases hj : j = i
      · rw [if_pos hj.symm, if_pos hj, if_pos (hj ▸ hlt)]
      · rw [if_neg (Ne.symm hj), if_neg hj]
    have hused : ∀ j s, (⟨d.slots.setIfInBounds i s, free⟩ : Document).used? j =
        if j = i then some s else d.used? j := by
      intro j s
      simp only [used?, hfree, hslots, List.mem_cons]
      by_cases hj : j = i
      · subst hj
        simp [hnd.1]
      · simp [hj]
    simp only [hgen]
    refine ⟨hnone, hgenlt, ⟨by rw [hused, if_pos rfl], rfl⟩, ?_, ?_⟩
    · refine ⟨fun _ => ⟨hnd.2, fun j hj => ?_, fun j s hs => ?_⟩, fun j _ hj => ?_,
        fun j hj => ?_, by simp⟩
      · rw [Array.size_setIfInBounds]
        exact hd.bounds j (hfree ▸ List.mem_cons_of_mem i hj)
      · rw [hslots] at hs
        split at hs
        · obtain rfl := Option.some.inj hs
          exact hgenlt
        · exact hd.generations j s hs
      · rw [hused, if_neg (by simpa using hj)]
      · rw [List.mem_singleton.mp hj]
        exact .inr hnone
    · intro j s hs
      have hmod := (Nat.mod_eq_of_lt (hd.generations j s hs)).symm
      by_cases hj : j = i
      · subst hj
        have hs' : d.slots[j] = s := by
          rw [Array.getElem?_eq_getElem hlt] at hs
          exact Option.some.inj hs
        refine ⟨0, _, le_rfl, le_rfl, by rw [hslots, if_pos rfl], ?_⟩
        rw [← hs'] at hmod ⊢
        exact hmod
      · exact ⟨0, s, le_rfl, le_rfl, by rw [hslots, if_neg hj]; exact hs, hmod⟩

/-! ## Giving up a slot -/

theorem slots_freeSlot (h : d.Holds id s) (i : Nat) : (d.freeSlot id).slots[i]? =
    if i = id.index then
      some { data := .fragment, generation := (s.generation + 1) % generations }
    else d.slots[i]? := by
  unfold freeSlot
  rw [if_pos h.contains_eq, Array.getElem?_modify]
  by_cases hi : i = id.index
  · rw [if_pos hi.symm, if_pos hi, hi, slots_of_used? h.1, Option.map_some]
  · rw [if_neg (Ne.symm hi), if_neg hi]

theorem free_freeSlot (h : d.Holds id s) : (d.freeSlot id).free = id.index :: d.free := by
  unfold freeSlot
  rw [if_pos h.contains_eq]

theorem freeSlot_spec (h : d.Holds id s) :
    (d.freeSlot id).used? id.index = none ∧ Swapped [id.index] [] d (d.freeSlot id) ∧
    (d.Sound → Aged (once [id.index]) (once [id.index]) d (d.freeSlot id)) := by
  have hslots := slots_freeSlot h
  have hfree := free_freeSlot h
  have hnone : (d.freeSlot id).used? id.index = none := by
    rw [used?, hfree, if_pos List.mem_cons_self]
  refine ⟨hnone, ⟨fun hd => ⟨?_, fun j hj => ?_, fun j s' hs' => ?_⟩, fun j hj _ => ?_, by simp,
    fun j hj => ?_⟩, fun hd j s' hs' => ?_⟩
  · rw [hfree, List.nodup_cons]
    exact ⟨not_mem_free h, hd.nodup⟩
  · have hsize : (d.freeSlot id).slots.size = d.slots.size := by
      unfold freeSlot
      rw [if_pos h.contains_eq, Array.size_modify]
    rw [hsize]
    rw [hfree] at hj
    rcases List.mem_cons.mp hj with rfl | hj
    · exact lt_of_used? h.1
    · exact hd.bounds j hj
  · rw [hslots] at hs'
    split at hs'
    · obtain rfl := Option.some.inj hs'
      exact Nat.mod_lt _ (by simp [generations])
    · exact hd.generations j s' hs'
  · have hj : j ≠ id.index := by simpa using hj
    simp only [used?, hslots, hfree, List.mem_cons, hj, false_or, if_false]
  · rw [List.mem_singleton.mp hj]
    exact .inr hnone
  · by_cases hj : j = id.index
    · subst hj
      obtain rfl : s = s' := Option.some.inj ((slots_of_used? h.1).symm.trans hs')
      refine ⟨1, _, ?_, ?_, by rw [hslots, if_pos rfl], rfl⟩ <;> simp [once]
    · refine ⟨0, s', by simp [once, hj], by simp [once, hj], by rw [hslots, if_neg hj]; exact hs', ?_⟩
      exact (Nat.mod_eq_of_lt (hd.generations j s' hs')).symm

/-! ## Moving -/

variable {c r : NodeId} {sc sf sp sr : Slot} {L R : List NodeId}

/-- A change of two slots. -/
theorem update_update {g : Slot → Slot} (hf : ∀ s, (f s).generation = s.generation)
    (hg : ∀ s, (g s).generation = s.generation) (hc : d.Holds c sc) (hp : d.Holds p sp)
    (hne : c.index ≠ p.index) :
    ((d.update c f).update p g).Holds c (f sc) ∧ ((d.update c f).update p g).Holds p (g sp) ∧
    Swapped [c.index, p.index] [c.index, p.index] d ((d.update c f).update p g) ∧
    (d.Sound → Aged (fun _ => 0) (fun _ => 0) d ((d.update c f).update p g)) := by
  have hc' := hc.update hf
  have hp' := hc.update_of_ne (f := f) hp hne.symm
  refine ⟨hp'.update_of_ne hc' hne, hp'.update hg, ?_, fun hd => ?_⟩
  · have h1 := (swapped_update hf hc).extend [p.index]
    have h2 := ((swapped_update hg hp').extend [c.index]).perm (.swap ..) (.swap ..)
    exact h1.trans h2
  · exact (aged_update hf hd hc).trans (aged_update hg (hd.update hf hc) hp')

theorem detach_spec (hc : d.Holds c sc) (hparent : sc.parent = some p) (hp : d.Holds p sp)
    (hne : c.index ≠ p.index) :
    (d.detach c).Holds c { sc with parent := none } ∧
    (d.detach c).Holds p { sp with children := sp.children.filter (· ≠ c) } ∧
    Swapped [c.index, p.index] [c.index, p.index] d (d.detach c) ∧
    (d.Sound → Aged (fun _ => 0) (fun _ => 0) d (d.detach c)) := by
  unfold detach
  rw [hc.parent?_eq, hparent]
  exact update_update (fun _ => rfl) (fun _ => rfl) hc hp hne

theorem detach_of_parent_eq_none (hc : d.Holds c sc) (hparent : sc.parent = none) :
    d.detach c = d := by
  unfold detach
  rw [hc.parent?_eq, hparent]

/-- A node without a parent goes to the end of a node's children. -/
theorem appendChild_spec (hc : d.Holds c sc) (hparent : sc.parent = none) (hp : d.Holds p sp)
    (hne : c.index ≠ p.index) :
    (d.appendChild p c).Holds c { sc with parent := some p } ∧
    (d.appendChild p c).Holds p { sp with children := sp.children ++ [c] } ∧
    Swapped [c.index, p.index] [c.index, p.index] d (d.appendChild p c) ∧
    (d.Sound → Aged (fun _ => 0) (fun _ => 0) d (d.appendChild p c)) := by
  unfold appendChild
  rw [hp.contains_eq, hc.contains_eq, Bool.and_true, if_pos rfl, detach_of_parent_eq_none hc hparent]
  exact update_update (fun _ => rfl) (fun _ => rfl) hc hp hne

theorem findIdx?_append_cons (hr : r ∉ L) : (L ++ r :: R).findIdx? (· = r) = some L.length := by
  rw [List.findIdx?_append, List.findIdx?_eq_none_iff.mpr fun x hx => by
    simpa using fun h : x = r => hr (h ▸ hx)]
  simp [List.findIdx?_cons]

theorem insertIdx_append_cons : (L ++ r :: R).insertIdx (L.length + 1) c = L ++ r :: c :: R := by
  induction L with
  | nil => simp
  | cons x L ih => simp [ih]

/-- A node goes from one parent to another, right after a child of that one. -/
theorem insertAfter_spec {f : NodeId} (hc : d.Holds c sc) (hfrom : sc.parent = some f)
    (hf : d.Holds f sf) (hr : d.Holds r sr) (hto : sr.parent = some p) (hp : d.Holds p sp)
    (hchildren : sp.children = L ++ r :: R) (hL : r ∉ L)
    (hcf : c.index ≠ f.index) (hcp : c.index ≠ p.index) (hfp : f.index ≠ p.index)
    (hrc : r.index ≠ c.index) (hrf : r.index ≠ f.index) :
    (d.insertAfter r c).2.Holds c { sc with parent := some p } ∧
    (d.insertAfter r c).2.Holds f { sf with children := sf.children.filter (· ≠ c) } ∧
    (d.insertAfter r c).2.Holds p { sp with children := L ++ r :: c :: R } ∧
    Swapped [c.index, f.index, p.index] [c.index, f.index, p.index] d (d.insertAfter r c).2 ∧
    (d.Sound → Aged (fun _ => 0) (fun _ => 0) d (d.insertAfter r c).2) := by
  obtain ⟨hc1, hf1, hsw1, hag1⟩ := detach_spec hc hfrom hf hcf
  have hr1 := hsw1.holds hr (by simp [hrc, hrf])
  have hp1 := hsw1.holds hp (by simp [hcp.symm, hfp.symm])
  have hpos : (d.detach c).position? r = some L.length := by
    unfold position?
    simp only [hr1.parent?_eq, hto, Option.bind_eq_bind, Option.bind_some, hp1.children_eq,
      hchildren]
    exact findIdx?_append_cons hL
  have hrc' : r ≠ c := fun h => hrc (congrArg NodeId.index h)
  unfold insertAfter
  rw [if_neg (by simp [hrc', hc.contains_eq]), hr.parent?_eq, hto]
  simp only [hpos, Option.map_some, Option.getD_some]
  obtain ⟨hc2, hp2, hsw2, hag2⟩ := update_update (f := fun s => { s with parent := some p })
    (g := fun s => { s with children := s.children.insertIdx (L.length + 1) c })
    (fun _ => rfl) (fun _ => rfl) hc1 hp1 hcp
  rw [hchildren, insertIdx_append_cons] at hp2
  refine ⟨hc2, hsw2.holds hf1 (by simp [hcf.symm, hfp]), hp2, ?_,
    fun hd => (hag1 hd).trans (hag2 (hsw1.sound hd))⟩
  have h1 := hsw1.extend [p.index]
  have h2 := (hsw2.extend [f.index]).perm (Y := [c.index, f.index, p.index])
    (X := [c.index, f.index, p.index]) (.cons _ (.swap ..)) (.cons _ (.swap ..))
  exact h1.trans h2

end LiveMarkup.Document
