import LiveMarkup.Proofs.Document.Content

/-!
# Owned content put in and taken out

Clearing a marker takes out just the forest that it owns (`clearOwned_spec`).  The content of a
fragment moves after a marker and is owned by it from then on, and the fragment is gone
(`insertOwned_spec`).
-/

namespace LiveMarkup.Document

variable {d d' : Document} {id p u : NodeId} {data : NodeData} {s sp : Slot} {o : Option NodeId}
  {f g cs ow rest : Forest NodeId} {L R Z U : List NodeId}

/-! ## Clearing -/

theorem filter_ne_append_cons (hL : id ∉ L) (hR : id ∉ R) :
    (L ++ id :: R).filter (· ≠ id) = L ++ R := by
  have hkeep : ∀ xs : List NodeId, id ∉ xs → xs.filter (· ≠ id) = xs := fun xs hxs =>
    List.filter_eq_self.mpr fun x hx => by simpa using fun h : x = id => hxs (h ▸ hx)
  rw [List.filter_append, List.filter_cons_of_neg (by simp), hkeep L hL, hkeep R hR]

/-- A node is removed from between its siblings, with all that stands below it. -/
theorem remove_spec (hd : d.Sound) (hroot : d.Rooted) (hp : d.Holds p sp)
    (hch : sp.children = L ++ id :: R) (h1 : d.Holds id ⟨data, id.generation, some p, cs.tops, o⟩)
    (h2 : Held d id none cs) (hnd : (id.index :: cs.ids).Nodup)
    (hapart : p.index ∉ id.index :: cs.ids) (hL : id ∉ L) (hR : id ∉ R) :
    (d.remove id).Holds p { sp with children := L ++ R } ∧
      Swapped (p.index :: id.index :: cs.ids) [p.index] d (d.remove id) ∧
      Aged (once (id.index :: cs.ids)) (once (id.index :: cs.ids)) d (d.remove id) := by
  have hne : id.index ≠ p.index := fun h => hapart (by simp [h])
  have hidcs := (List.nodup_cons.mp hnd).1
  have hnroot : id ≠ root := fun h => by
    obtain ⟨s, hs, hnone⟩ := hroot
    subst h
    rw [hs.unique h1] at hnone
    cases hnone
  obtain ⟨hid1, hp1, hsw1, hag1⟩ := detach_spec h1 rfl hp hne
  rw [hch, filter_ne_append_cons hL hR] at hp1
  have hcs1 := hsw1.held h2 fun i hi => by
    simpa using ⟨fun h => hidcs (h ▸ hi), fun h => hapart (h ▸ List.mem_cons_of_mem _ hi)⟩
  obtain ⟨hsw2, hag2⟩ := release_node (hsw1.sound hd) hid1 rfl hcs1 hnd
  unfold remove
  rw [if_neg (by simp [hnroot, h1.contains_eq])]
  refine ⟨hsw2.holds hp1 hapart, ?_, ((hag1 hd).trans hag2).mono (by simp) (by simp)⟩
  have h1' := (hsw1.extend cs.ids).perm (X := p.index :: id.index :: cs.ids)
    (Y := id.index :: cs.ids ++ [p.index]) (.swap ..)
    (.cons _ (List.perm_append_singleton p.index cs.ids).symm)
  exact h1'.trans (hsw2.extend [p.index])

/-- All nodes of an owned forest are removed when its owner is cleared. -/
theorem clearAmong_spec (hd : d.Sound) (hroot : d.Rooted)
    (hp : d.Holds p { sp with children := L ++ (f.tops ++ R) }) (hf : Held d p (some u) f)
    (hnd : f.ids.Nodup) (hapart : p.index ∉ f.ids) (hLR : ∀ x ∈ L ++ R, x.index ∉ f.ids)
    (hu : u ∈ U) : ∃ d' U', (d.clearAmong U (f.tops ++ Z)).2 =
        (d'.clearAmong U' Z).2 ∧ d'.Holds p { sp with children := L ++ R } ∧
      Swapped (p.index :: f.ids) [p.index] d d' ∧ Aged (once f.ids) (once f.ids) d d' ∧
      (∀ x ∈ U, x ∈ U') ∧ ∀ x ∈ U', x ∈ U ∨ x.index ∈ f.ids := by
  induction f generalizing d u U R Z with
  | nil =>
    refine ⟨d, U, rfl, hp, Swapped.refl _ d, ?_, fun x hx => hx, fun x hx => .inl hx⟩
    exact (Aged.refl hd).mono (by simp [Forest.ids]) (by simp [Forest.ids])
  | node id data cs ow rest _ iho ihr =>
    have honce := once_node hnd
    obtain ⟨h1, h2, h3, h4⟩ := hf
    obtain ⟨hid, hnds, hcow, hcr, howr⟩ := Forest.nodup_node hnd
    simp only [Forest.ids, List.mem_cons, List.mem_append, not_or] at hapart hLR
    have hidL : id ∉ L := fun h => (hLR id (.inl h)).1 rfl
    have hidR : id ∉ ow.tops ++ (rest.tops ++ R) := by
      simp only [List.mem_append, not_or]
      exact ⟨fun h => hid.2.1 (Forest.index_mem_of_mem_tops h),
        fun h => hid.2.2 (Forest.index_mem_of_mem_tops h), fun h => (hLR id (.inr h)).1 rfl⟩
    obtain ⟨hp1, hsw1, hag1⟩ := remove_spec hd hroot hp (L := L) (R := ow.tops ++ (rest.tops ++ R))
      (by simp [Forest.tops]) h1 h2 (List.nodup_cons.mpr ⟨hid.1, hnds.1⟩)
      (by simpa using ⟨hapart.1, hapart.2.1⟩) hidL hidR
    have hd1 := hsw1.sound hd
    have hroot1 : (d.remove id).Rooted := by
      refine hroot.swap hp hp1 rfl hsw1 ?_
      simpa [Forest.ids] using Held.root_not_mem (f := .node id data cs .nil .nil) (o := some u)
        ⟨h1, h2, trivial, trivial⟩ hroot
    have how : ∀ i ∈ ow.ids, i ∉ p.index :: id.index :: cs.ids := fun i hi => by
      simpa using ⟨fun h => hapart.2.2.1 (h ▸ hi), fun h => hid.2.1 (h ▸ hi), fun h => hcow h hi⟩
    have hrest : ∀ i ∈ rest.ids, i ∉ p.index :: id.index :: cs.ids := fun i hi => by
      simpa using ⟨fun h => hapart.2.2.2 (h ▸ hi), fun h => hid.2.2 (h ▸ hi), fun h => hcr h hi⟩
    have hrest2 : ∀ i ∈ rest.ids, i ∉ p.index :: ow.ids := fun i hi => by
      simpa using ⟨fun h => hapart.2.2.2 (h ▸ hi), fun h => howr h hi⟩
    have hLR2 : ∀ x ∈ L ++ (rest.tops ++ R), x.index ∉ ow.ids := fun x hx => by
      simp only [List.mem_append] at hx
      rcases hx with hx | hx | hx
      · exact (hLR x (.inl hx)).2.2.1
      · exact fun h => howr h (Forest.index_mem_of_mem_tops hx)
      · exact (hLR x (.inr hx)).2.2.1
    obtain ⟨d2, U2, heq2, hp2, hsw2, hag2, hsub2, hown2⟩ := iho hd1 hroot1 (u := id)
      (U := id :: U) (Z := rest.tops ++ Z) (R := rest.tops ++ R) hp1 (hsw1.held h3 how)
      hnds.2.1 hapart.2.2.1 hLR2 List.mem_cons_self
    have hroot2 : d2.Rooted :=
      hroot1.swap hp1 hp2 rfl hsw2 ((hsw1.held h3 how).root_not_mem hroot1)
    obtain ⟨d3, U3, heq3, hp3, hsw3, hag3, hsub3, hown3⟩ := ihr (hsw2.sound hd1) hroot2
      (u := u) (U := U2) (Z := Z) (R := R) hp2
      (hsw2.held (hsw1.held h4 hrest) hrest2) hnds.2.2 hapart.2.2.2
      (fun x hx => (hLR x (List.mem_append.mp hx)).2.2.2)
      (hsub2 u (List.mem_cons_of_mem id hu))
    refine ⟨d3, U3, ?_, hp3, ?_,
      (hag1.trans (hag2.trans hag3)).mono (fun i => (honce i).le) fun i => (honce i).ge,
      fun x hx => hsub3 x (hsub2 x (List.mem_cons_of_mem id hx)), fun x hx => ?_⟩
    · rw [← heq3, ← heq2]
      simp only [Forest.tops, List.cons_append, List.append_assoc, clearAmong, h1.owner?_eq,
        Option.any_some, hu, decide_true, if_true]
    · have h12 := (hsw1.extend (ow.ids ++ rest.ids)).trans
        (hsw2.extend rest.ids |>.perm (X := [p.index] ++ (ow.ids ++ rest.ids)) (by simp) (.refl _))
      refine (h12.trans hsw3).perm ?_ (.refl _)
      simp [Forest.ids]
    · simp only [Forest.ids, List.mem_cons, List.mem_append]
      rcases hown3 x hx with hx | hx
      · rcases hown2 x hx with hx | hx
        · rcases List.mem_cons.mp hx with rfl | hx
          exacts [.inr (.inl rfl), .inl hx]
        · exact .inr (.inr (.inr (.inl hx)))
      · exact .inr (.inr (.inr (.inr hx)))

theorem clearAmong_keep : ∀ {xs : List NodeId},
    (∀ x ∈ xs, ∀ u, d.owner? x = some u → u ∉ U) → (d.clearAmong U xs).2 = d
  | [], _ => rfl
  | x :: xs, h => by
    have hx : ¬ (d.owner? x).any (· ∈ U) = true := fun hany => by
      rcases hu : d.owner? x with _ | u <;> rw [hu] at hany
      · cases hany
      · exact h x List.mem_cons_self u hu (by simpa using hany)
    rw [clearAmong, if_neg hx]
    exact clearAmong_keep fun y hy => h y (List.mem_cons_of_mem x hy)

/-- Clearing takes out just the forest that is owned. -/
theorem clearOwned_spec (hd : d.Sound) (hst : Stands d p sp o L R (.node id data cs ow rest)) :
    Turns p sp (some id) (L ++ [id]) (rest.tops ++ R) ow .nil d (d.clearOwned id).2 ∧
      Aged (once ow.ids) (once ow.ids) d (d.clearOwned id).2 := by
  have hin := hst.inOwned
  obtain ⟨h1, h2, h3, h4⟩ := hst.held
  obtain ⟨hid, hnds, hcow, hcr, howr⟩ := Forest.nodup_node hst.nodup
  have hidL : id ∉ L := fun h =>
    (hst.siblings id (List.mem_append_left R h)).2.1 (by simp [Forest.ids])
  have hafter : d.followingSiblings id = ow.tops ++ (rest.tops ++ R) := by
    have hch : d.children p = L ++ id :: (ow.tops ++ (rest.tops ++ R)) := by
      rw [hst.parent.children_eq]
      simp [Forest.tops]
    have hpos : d.position? id = some L.length := by
      unfold position?
      simp only [h1.parent?_eq, Option.bind_eq_bind, Option.bind_some, hch]
      exact findIdx?_append_cons hidL
    unfold followingSiblings
    simp only [h1.parent?_eq, hpos, hch]
    rw [show L ++ id :: (ow.tops ++ (rest.tops ++ R)) = (L ++ [id]) ++ (ow.tops ++ (rest.tops ++ R))
      by simp, List.drop_left' (by simp)]
  obtain ⟨d', U', heq, hp', hsw, hag, -, hown⟩ := clearAmong_spec (U := [id])
    (Z := rest.tops ++ R) hd hst.rooted hin.parent h3 hnds.2.1 hin.apart
    (fun x hx => (hin.siblings x hx).2.1) (List.mem_singleton_self id)
  have hkeep : (d'.clearAmong U' (rest.tops ++ R)).2 = d' := by
    refine clearAmong_keep fun x hx u hu hmem => ?_
    obtain ⟨s, hs, hout⟩ := hin.after x hx
    have hx' := hin.siblings x (List.mem_append_right _ hx)
    have hs' : d'.Holds x s := hsw.holds hs (by simpa using ⟨hx'.1, hx'.2.1⟩)
    rw [hs'.owner?_eq] at hu
    have hself : u.index ∉ id.index :: ow.ids := by
      rcases List.mem_append.mp hx with hx | hx
      · obtain ⟨t, ht, -, hown⟩ := h4.top hx
        obtain rfl := ht.unique hs
        rcases hown with hown | ⟨v, hv, hi⟩
        · have := (hst.owner u (hown.symm.trans hu)).1
          simp only [Forest.ids, List.mem_cons, List.mem_append, not_or] at this
          simpa using ⟨this.1, this.2.2.1⟩
        · obtain rfl := Option.some.inj (hv.symm.trans hu)
          simpa using ⟨fun h => hid.2.2 (h ▸ hi), fun h => howr h hi⟩
      · obtain ⟨t, ht, hown⟩ := hst.after x hx
        obtain rfl := ht.unique hs
        have := (hown u hu).1
        simp only [Forest.ids, List.mem_cons, List.mem_append, not_or] at this
        simpa using ⟨this.1, this.2.2.1⟩
    rcases hown u hmem with h | h
    · exact hself (by simp [List.mem_singleton.mp h])
    · exact hself (List.mem_cons_of_mem _ h)
  have hclear : (d.clearOwned id).2 = d' := by
    unfold clearOwned
    rw [hafter, heq, hkeep]
  rw [hclear]
  refine ⟨hin.turns ?_ (by simpa [Forest.tops] using hp') trivial List.nodup_nil (by simp [Forest.ids]),
    hag⟩
  simpa [Forest.ids] using hsw

/-! ## Inserting -/

/-- What stands in a document stands there also after something was added to the side. -/
theorem Stands.aside {B : List Nat} (hst : Stands d p sp o L R f) (hsw : Swapped [] B d d') :
    Stands d' p sp o L R f := by
  have hout : ∀ i, Outside d f i → Outside d' f i := fun i hi =>
    ⟨hi.1, hi.2.imp fun s hs => hsw.used?_eq hs (by simp)⟩
  refine ⟨hsw.holds hst.parent (by simp), hsw.held hst.held (by simp), hst.nodup, hst.apart,
    fun x hx => (hst.siblings x hx).imp_right (hout _), fun x hx => ?_,
    fun u hu => hout _ (hst.owner u hu), ?_⟩
  · obtain ⟨s, hs, hown⟩ := hst.after x hx
    exact ⟨s, hsw.holds hs (by simp), fun u hu => hout _ (hown u hu)⟩
  · obtain ⟨s, hs, hnone⟩ := hst.rooted
    exact ⟨s, hsw.holds hs (by simp), hnone⟩

/-- A forest moves from one node to another, after a child of that one, and belongs to the marker. -/
theorem insertOwnedAfter_spec {m F anchor : NodeId} {sF sa : Slot} (hd : d.Sound)
    (hF : d.Holds F { sF with children := f.tops ++ Z })
    (hp : d.Holds p { sp with children := L ++ anchor :: R }) (ha : d.Holds anchor sa)
    (hap : sa.parent = some p) (hf : Held d F o f) (hnd : f.ids.Nodup) (hFf : F.index ∉ f.ids)
    (hpf : p.index ∉ f.ids) (hFp : F.index ≠ p.index)
    (hL : ∀ x ∈ L ++ [anchor], x.index ∉ f.ids ∧ x.index ≠ F.index)
    (hnot : anchor ∉ L) (hZ : ∀ x ∈ Z, x.index ∉ f.ids) :
    ∃ d' L' a' sa', insertOwnedAfter m d anchor (f.tops ++ Z) = insertOwnedAfter m d' a' Z ∧
      L' ++ [a'] = L ++ anchor :: f.tops ∧ a' ∉ L' ∧ d'.Holds F { sF with children := Z } ∧
      d'.Holds p { sp with children := L' ++ a' :: R } ∧ d'.Holds a' sa' ∧
      sa'.parent = some p ∧ Held d' p (o.or (some m)) f ∧
      Swapped (F.index :: p.index :: f.ids) (F.index :: p.index :: f.ids) d d' ∧
      Aged (fun _ => 0) (fun _ => 0) d d' := by
  induction f generalizing d o L anchor sa Z with
  | nil =>
    exact ⟨d, L, anchor, sa, rfl, rfl, hnot, hF, hp, ha, hap, trivial, Swapped.refl _ d, Aged.refl hd⟩
  | node id data cs ow rest _ iho ihr =>
    obtain ⟨h1, h2, h3, h4⟩ := hf
    obtain ⟨hid, hnds, hcow, hcr, howr⟩ := Forest.nodup_node hnd
    simp only [Forest.ids, List.mem_cons, List.mem_append, not_or] at hFf hpf hL hZ
    have hanchor := hL anchor (.inr (.inl rfl))
    -- the owner is set first
    obtain ⟨d0, hd0, hid0, hsw0, hag0⟩ : ∃ d0, (if (d.owner? id).isNone then
        d.setOwner id (some m) else d) = d0 ∧
        d0.Holds id ⟨data, id.generation, some F, cs.tops, o.or (some m)⟩ ∧
        Swapped [id.index] [id.index] d d0 ∧ Aged (fun _ => 0) (fun _ => 0) d d0 := by
      rw [h1.owner?_eq]
      rcases o with _ | u
      · exact ⟨_, rfl, h1.update (f := fun s => { s with owner := some m }) fun _ => rfl,
          swapped_update (fun _ => rfl) h1, aged_update (fun _ => rfl) hd h1⟩
      · exact ⟨d, rfl, h1, Swapped.refl _ d, Aged.refl hd⟩
    have hF0 := hsw0.holds hF (by simpa using hFf.1)
    have hp0 := hsw0.holds hp (by simpa using hpf.1)
    have ha0 := hsw0.holds ha (by simpa using hanchor.1.1)
    obtain ⟨hid1, hF1, hp1, hsw1, hag1⟩ := insertAfter_spec hid0 rfl hF0 ha0 hap hp0 rfl hnot
      (Ne.symm hFf.1) (Ne.symm hpf.1) hFp hanchor.1.1 hanchor.2
    set d1 := (d0.insertAfter anchor id).2 with hd1
    have hout : ∀ i, i ≠ id.index → i ≠ F.index → i ≠ p.index → i ∉ [id.index, F.index, p.index] :=
      fun i h1 h2 h3 => by simp [h1, h2, h3]
    have hself : ∀ g : Forest NodeId, id.index ∉ g.ids → ∀ i ∈ g.ids, i ∉ [id.index] :=
      fun g hg i hi h => hg (List.mem_singleton.mp h ▸ hi)
    have hcs1 := hsw1.held (hsw0.held h2 (hself _ hid.1))
      fun i hi => hout i (fun h => hid.1 (h ▸ hi)) (fun h => hFf.2.1 (h ▸ hi))
        fun h => hpf.2.1 (h ▸ hi)
    have how1 := hsw1.held (hsw0.held h3 (hself _ hid.2.1))
      fun i hi => hout i (fun h => hid.2.1 (h ▸ hi)) (fun h => hFf.2.2.1 (h ▸ hi))
        fun h => hpf.2.2.1 (h ▸ hi)
    have hrest1 := hsw1.held (hsw0.held h4 (hself _ hid.2.2))
      fun i hi => hout i (fun h => hid.2.2 (h ▸ hi)) (fun h => hFf.2.2.2 (h ▸ hi))
        fun h => hpf.2.2.2 (h ▸ hi)
    have hFch : (id :: (ow.tops ++ rest.tops) ++ Z).filter (· ≠ id) = ow.tops ++ (rest.tops ++ Z) := by
      have hnot : id ∉ ow.tops ++ (rest.tops ++ Z) := by
        simp only [List.mem_append, not_or]
        exact ⟨fun h => hid.2.1 (Forest.index_mem_of_mem_tops h),
          fun h => hid.2.2 (Forest.index_mem_of_mem_tops h), fun h => (hZ id h).1 rfl⟩
      simpa using filter_ne_append_cons (L := []) (by simp) hnot
    simp only [Forest.tops] at hF1
    rw [hFch] at hF1
    have hL1 : ∀ x ∈ (L ++ [anchor]) ++ [id], x.index ∉ ow.ids ∧ x.index ≠ F.index := fun x hx => by
      rcases List.mem_append.mp hx with hx | hx
      · have := hL x (List.mem_append.mp hx |>.imp_right fun h => .inl (List.mem_singleton.mp h))
        exact ⟨this.1.2.2.1, this.2⟩
      · obtain rfl := List.mem_singleton.mp hx
        exact ⟨hid.2.1, Ne.symm hFf.1⟩
    have hnot1 : id ∉ L ++ [anchor] := fun h =>
      (hL id (List.mem_append.mp h |>.imp_right fun h => .inl (List.mem_singleton.mp h))).1.1 rfl
    have hZ1 : ∀ x ∈ rest.tops ++ Z, x.index ∉ ow.ids := fun x hx => by
      rcases List.mem_append.mp hx with hx | hx
      · exact fun h => howr h (Forest.index_mem_of_mem_tops hx)
      · exact (hZ x hx).2.2.1
    obtain ⟨d2, L2, a2, sa2, heq2, hL2, hnot2, hF2, hp2, ha2, hap2, how2, hsw2, hag2⟩ := iho
      (L := L ++ [anchor]) (Z := rest.tops ++ Z) (hsw1.sound (hsw0.sound hd)) hF1 (by simpa using hp1)
      hid1 rfl how1 hnds.2.1 hFf.2.2.1 hpf.2.2.1 hL1 hnot1 hZ1
    have hrest2 := hsw2.held hrest1 fun i hi => by
      simpa using ⟨fun h => hFf.2.2.2 (h ▸ hi), fun h => hpf.2.2.2 (h ▸ hi), fun h => howr h hi⟩
    have hL2' : ∀ x ∈ L2 ++ [a2], x.index ∉ rest.ids ∧ x.index ≠ F.index := fun x hx => by
      rw [hL2] at hx
      simp only [List.append_assoc, List.singleton_append, List.mem_append, List.mem_cons] at hx
      rcases hx with hx | rfl | rfl | hx
      · exact ⟨(hL x (.inl hx)).1.2.2.2, (hL x (.inl hx)).2⟩
      · exact ⟨hanchor.1.2.2.2, hanchor.2⟩
      · exact ⟨hid.2.2, Ne.symm hFf.1⟩
      · have := Forest.index_mem_of_mem_tops hx
        exact ⟨fun h => howr this h, fun h => hFf.2.2.1 (h ▸ this)⟩
    obtain ⟨d3, L3, a3, sa3, heq3, hL3, hnot3, hF3, hp3, ha3, hap3, hrest3, hsw3, hag3⟩ := ihr
      (Z := Z) (hsw2.sound (hsw1.sound (hsw0.sound hd))) hF2 hp2 ha2 hap2 hrest2 hnds.2.2
      hFf.2.2.2 hpf.2.2.2 hL2' hnot2 fun x hx => (hZ x hx).2.2.2
    refine ⟨d3, L3, a3, sa3, ?_, ?_, hnot3, hF3, hp3, ha3, hap3, ⟨?_, ?_, ?_, hrest3⟩, ?_,
      ((hag0.trans (hag1 (hsw0.sound hd))).trans (hag2.trans hag3)).mono (by simp) (by simp)⟩
    · rw [← heq3, ← heq2]
      simp only [Forest.tops, List.cons_append, List.append_assoc, insertOwnedAfter, hd0, hd1]
    · rw [hL3, List.append_cons, hL2]
      simp [Forest.tops]
    · refine hsw3.holds (hsw2.holds hid1 ?_) ?_
      · simpa using ⟨Ne.symm hFf.1, Ne.symm hpf.1, hid.2.1⟩
      · simpa using ⟨Ne.symm hFf.1, Ne.symm hpf.1, hid.2.2⟩
    · refine hsw3.held (hsw2.held hcs1 fun i hi => ?_) fun i hi => ?_
      · simpa using ⟨fun h => hFf.2.1 (h ▸ hi), fun h => hpf.2.1 (h ▸ hi), hcow hi⟩
      · simpa using ⟨fun h => hFf.2.1 (h ▸ hi), fun h => hpf.2.1 (h ▸ hi), hcr hi⟩
    · refine hsw3.held (by simpa using how2) fun i hi => ?_
      simpa using ⟨fun h => hFf.2.2.1 (h ▸ hi), fun h => hpf.2.2.1 (h ▸ hi), howr hi⟩
    · refine Swapped.trans (hsw0.grow ?_) (Swapped.trans (hsw1.grow ?_)
        (Swapped.trans (hsw2.grow ?_) (hsw3.grow ?_))) <;> simp +contextual [Forest.ids, or_imp]

/-- An empty fragment is given up. -/
theorem releaseFragment_spec {F : NodeId} {sF : Slot} (hd : d.Sound) (hF : d.Holds F sF)
    (hdata : sF.data = .fragment) (hnone : sF.parent = none) (hempty : sF.children = [])
    (hroot : F ≠ root) : Swapped [F.index] [] d (d.releaseFragment F) ∧
      Aged (fun _ => 0) (once [F.index]) d (d.releaseFragment F) := by
  obtain ⟨hsw, hag⟩ := release_node hd hF (show sF.children = Forest.nil.tops from hempty) trivial (List.nodup_singleton _)
  unfold releaseFragment remove
  rw [hF.data_eq, hF.children_eq, hdata, hempty, if_pos (by simp),
    if_neg (by simp [hroot, hF.contains_eq]), detach_of_parent_eq_none hF hnone]
  exact ⟨hsw, hag.mono (fun _ => Nat.zero_le _) fun _ => le_rfl⟩

/-- The content of a fragment that was made aside goes after a marker, and the fragment is gone. -/
theorem insertOwned_spec {F : NodeId} {sF : Slot} {d1 : Document} (hd : d1.Sound)
    (hst : Stands d p sp (some id) (L ++ [id]) R .nil) (hid : d.Holds id s)
    (hparent : s.parent = some p) (hnot : id ∉ L) (hsw : Swapped [] (F.index :: g.ids) d d1)
    (hF : Stands d1 F sF none [] [] g) (hdata : sF.data = .fragment) (hnone : sF.parent = none) :
    Turns p sp (some id) (L ++ [id]) R .nil g d (d1.insertOwned id F).2 ∧
      Aged (fun _ => 0) (once [F.index]) d1 (d1.insertOwned id F).2 := by
  have hst1 := hst.aside hsw
  have hid1 := hsw.holds hid (by simp)
  have hfresh : ∀ {x : NodeId} {t : Slot}, d.Holds x t → x.index ≠ F.index ∧ x.index ∉ g.ids :=
    fun hx => by simpa using hsw.not_mem_of_used hx.1 (by simp)
  have hp := hfresh hst.parent
  have hsib : ∀ x ∈ L ++ [id], x.index ∉ g.ids ∧ x.index ≠ F.index := fun x hx => by
    obtain ⟨t, ht⟩ := (hst.siblings x (List.mem_append_left R hx)).2.2
    have := hsw.not_mem_of_used ht (by simp)
    simp only [List.mem_cons, not_or] at this
    exact ⟨this.2, this.1⟩
  obtain ⟨t, ht, -⟩ := hst.rooted
  have hroot : F ≠ root := fun h => (hfresh ht).1 (congrArg NodeId.index h.symm)
  obtain ⟨d2, L', a', sa', heq, hL', -, hF2, hp2, -, -, hg2, hsw2, hag2⟩ := insertOwnedAfter_spec
    (Z := []) (m := id) hd (by simpa using hF.parent)
    (by simpa [Forest.tops] using hst1.parent) hid1 hparent hF.held hF.nodup hF.apart hp.2
    (Ne.symm hp.1) hsib hnot (by simp)
  obtain ⟨hsw3, hag3⟩ := releaseFragment_spec (hsw2.sound hd) hF2 hdata hnone rfl hroot
  have hresult : (d1.insertOwned id F).2 = d2.releaseFragment F := by
    unfold insertOwned
    have hch := hF.parent.children_eq
    simp only [List.nil_append] at hch heq
    simp only [hch, heq, insertOwnedAfter]
  rw [hresult]
  refine ⟨hst.turns ?_ ?_ (hsw3.held hg2 ?_) hF.nodup hp.2, (hag2.trans hag3).mono (by simp) (by simp)⟩
  · have h1 := (hsw.extend [p.index]).trans
      (hsw2.perm (X := F.index :: g.ids ++ [p.index]) (Y := [F.index] ++ (p.index :: g.ids))
        (.cons _ (List.perm_append_singleton p.index g.ids).symm) (.refl _))
    exact (h1.trans (hsw3.extend (p.index :: g.ids))).perm (by simp [Forest.ids]) (.refl _)
  · have : L' ++ a' :: R = (L ++ [id]) ++ (g.tops ++ R) := by
      rw [List.append_cons, hL']
      simp
    rw [← this]
    exact hsw3.holds hp2 (by simpa using hp.1)
  · intro i hi h
    exact hF.apart (List.mem_singleton.mp h ▸ hi)

end LiveMarkup.Document
