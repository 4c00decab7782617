import Mathlib.Data.List.Perm.Subperm
import LiveMarkup.Proofs.Document.Forest

/-!
# Content put in and taken out

Markup that is grafted onto a node stands below it as a new forest (`graftAll_spec`), and so does
the content of a new fragment (`createFragment_spec`).  Releasing the nodes of a forest gives up
just its slots (`release_spec`).
-/

namespace LiveMarkup.Document

variable {d d' : Document} {id p : NodeId} {data : NodeData} {s sp : Slot} {o : Option NodeId}
  {f g cs ow rest : Forest NodeId} {L R : List NodeId}

/-! ## Grafting -/

theorem append_create (hd : d.Sound) (hst : Stands d p sp none L [] .nil) (data : NodeData) :
    Turns p sp none L [] .nil (.node (d.create data).1 data .nil .nil .nil) d
      ((d.create data).2.appendChild p (d.create data).1) ∧
    Aged (fun _ => 0) (fun _ => 0) d ((d.create data).2.appendChild p (d.create data).1) := by
  obtain ⟨hnone, -, hnew, hsw1, hag1⟩ := create_spec hd data
  set id := (d.create data).1
  have hne : id.index ≠ p.index := fun h => by
    rw [h, hst.parent.1] at hnone
    cases hnone
  have hp := hsw1.holds hst.parent (by simp)
  obtain ⟨hid, hp', hsw2, hag2⟩ := appendChild_spec hnew rfl hp hne
  have hsw : Swapped [p.index] [p.index, id.index] d ((d.create data).2.appendChild p id) :=
    ((hsw1.extend [p.index]).trans hsw2).perm (.refl _) (.swap ..)
  refine ⟨hst.turns hsw ?_ ⟨hid, trivial, trivial, trivial⟩ ?_ ?_, hag1.trans (hag2 (hsw1.sound hd))⟩
  · simpa [Forest.tops] using hp'
  · simp [Forest.ids]
  · simpa [Forest.ids] using hne.symm

/-- Markup is grafted onto a node as a new forest after what is there. -/
theorem graftAll_spec : ∀ (ts : List Tree) {d : Document} {p : NodeId} {sp : Slot}
    {L : List NodeId}, d.Sound → Stands d p sp none L [] .nil →
      ∃ g, Turns p sp none L [] .nil g d (d.graftAll p ts) ∧ g.shape = Forest.ofTrees ts ∧
        Aged (fun _ => 0) (fun _ => 0) d (d.graftAll p ts)
  | [], d, p, sp, L, hd, hst => by
    rw [graftAll, Forest.ofTrees]
    exact ⟨.nil, Turns.refl hst, rfl, Aged.refl hd⟩
  | .node data ts :: rest, d, p, sp, L, hd, hst => by
    rw [graftAll, graft, Forest.ofTrees]
    obtain ⟨ht0, hag0⟩ := append_create hd hst data
    have hd0 := ht0.swapped.sound hd
    obtain ⟨cs, ht1, hs1, hag1⟩ := graftAll_spec ts hd0 ht0.stands.inChildren
    have ht01 := ht0.trans (ht0.stands.turns_inChildren ht1)
    have hd1 := ht1.swapped.sound hd0
    obtain ⟨rest', ht2, hs2, hag2⟩ := graftAll_spec rest hd1 ht01.stands.inRest
    refine ⟨_, ht01.trans (ht01.stands.turns_inRest ht2), ?_, (hag0.trans hag1).trans hag2⟩
    rw [Forest.shape, hs1, hs2]
    rfl

/-- A new fragment holds the forest of its markup. -/
theorem createFragment_spec (hd : d.Sound) (hroot : d.Rooted) (html : List Char) :
    ∃ g sp, sp.data = .fragment ∧ sp.parent = none ∧
      Stands (d.createFragment html).2 (d.createFragment html).1 sp none [] [] g ∧
      g.shape = Forest.ofTrees (Tree.parse html) ∧
      d.used? (d.createFragment html).1.index = none ∧
      Swapped [] ((d.createFragment html).1.index :: g.ids) d (d.createFragment html).2 ∧
      Aged (fun _ => 0) (fun _ => 0) d (d.createFragment html).2 := by
  obtain ⟨hnone, -, hnew, hsw, hag⟩ := create_spec hd .fragment
  unfold createFragment parseInto
  simp only
  set id := (d.create .fragment).1
  have hst : Stands (d.create .fragment).2 id { data := .fragment, generation := id.generation }
      none [] [] .nil :=
    ⟨hnew, trivial, List.nodup_nil, by simp [Forest.ids], by simp, by simp, by simp,
      hroot.imp fun s hs => ⟨hsw.holds hs.1 (by simp), hs.2⟩⟩
  obtain ⟨g, ht, hs, hag'⟩ := graftAll_spec (Tree.parse html) (hsw.sound hd) hst
  exact ⟨g, _, rfl, rfl, ht.stands, hs, hnone, hsw.trans ht.swapped, hag.trans hag'⟩

/-! ## Releasing -/

theorem freeSlots_spec : ∀ {xs : List NodeId} {d : Document}, d.Sound →
    (xs.map NodeId.index).Nodup → (∀ x ∈ xs, ∃ s, d.Holds x s) →
      Swapped (xs.map NodeId.index) [] d (xs.foldl freeSlot d) ∧
      Aged (once (xs.map NodeId.index)) (once (xs.map NodeId.index)) d (xs.foldl freeSlot d)
  | [], d, hd, _, _ => ⟨Swapped.refl _ d, (Aged.refl hd).mono (by simp) (by simp)⟩
  | x :: xs, d, hd, hnd, hall => by
    obtain ⟨s, hs⟩ := hall x List.mem_cons_self
    obtain ⟨-, hsw, hag⟩ := freeSlot_spec hs
    simp only [List.map_cons, List.nodup_cons] at hnd
    have hne : ∀ y ∈ xs, y.index ∉ [x.index] := fun y hy h =>
      hnd.1 (List.mem_singleton.mp h ▸ List.mem_map_of_mem hy)
    obtain ⟨hsw', hag'⟩ := freeSlots_spec (hsw.sound hd) hnd.2 fun y hy =>
      let ⟨t, ht⟩ := hall y (List.mem_cons_of_mem x hy)
      ⟨t, hsw.holds ht (hne y hy)⟩
    have honce : ∀ i, once (x.index :: xs.map NodeId.index) i =
        once [x.index] i + once (xs.map NodeId.index) i := fun i =>
      once_append (A := [x.index]) (by simpa using hnd.1) i
    refine ⟨?_, ((hag hd).trans hag').mono (fun i => (honce i).le) fun i => (honce i).ge⟩
    exact (hsw.extend (xs.map NodeId.index)).trans hsw'

theorem length_le_capacity {xs : List Nat} (hnd : xs.Nodup)
    (h : ∀ i ∈ xs, ∃ s, d.used? i = some s) : xs.length ≤ d.capacity := by
  rw [capacity, ← List.length_range (n := d.slots.size)]
  refine (hnd.subperm fun i hi => ?_).length_le
  obtain ⟨s, hs⟩ := h i hi
  exact List.mem_range.mpr (lt_of_used? hs)

theorem length_nodes (f : Forest NodeId) : f.nodes.length = f.ids.length := by
  rw [Forest.ids_eq, List.length_map]

/-- The walks backward from the topmost nodes of a forest come to all nodes of it. -/
theorem backward_perm (hf : Held d p o f) : ∀ {fuel : Nat}, f.nodes.length ≤ fuel →
    (f.tops.flatMap (d.backward fuel)).Perm (f.nodes.map (·.1)) := by
  induction f generalizing p o with
  | nil => exact fun _ => .nil
  | node id data cs ow rest ihc iho ihr =>
    obtain ⟨h1, h2, h3, h4⟩ := hf
    intro fuel hfuel
    simp only [Forest.nodes, List.length_cons, List.length_append] at hfuel
    obtain ⟨fuel, rfl⟩ : ∃ k, fuel = k + 1 := ⟨fuel - 1, by omega⟩
    have hself : d.backward (fuel + 1) id = id :: cs.tops.reverse.flatMap (d.backward fuel) := by
      rw [backward, h1.children_eq]
    simp only [Forest.tops, Forest.nodes, List.flatMap_cons, List.flatMap_append, List.map_cons,
      List.map_append, hself]
    refine .cons _ (.append ?_ (.append (iho h3 (by omega)) (ihr h4 (by omega))))
    exact ((List.reverse_perm _).flatMap_right _).trans (ihc h2 (by omega))

theorem Held.nodes (hf : Held d p o f) : ∀ x ∈ f.nodes.map (·.1), ∃ s, d.Holds x s := by
  induction f generalizing p o with
  | nil => simp [Forest.nodes]
  | node id data cs ow rest ihc iho ihr =>
    obtain ⟨h1, h2, h3, h4⟩ := hf
    simp only [Forest.nodes, List.map_cons, List.map_append, List.mem_cons, List.mem_append]
    rintro x (rfl | hx | hx | hx)
    exacts [⟨_, h1⟩, ihc h2 x hx, iho h3 x hx, ihr h4 x hx]

/-- A released node takes along what stands below it, and nothing else. -/
theorem release_node (hd : d.Sound) (hs : d.Holds id s) (hch : s.children = cs.tops)
    (hcs : Held d id none cs) (hnd : (id.index :: cs.ids).Nodup) :
    Swapped (id.index :: cs.ids) [] d (d.release id) ∧
      Aged (once (id.index :: cs.ids)) (once (id.index :: cs.ids)) d (d.release id) := by
  have hcap : (id.index :: cs.ids).length ≤ d.capacity := length_le_capacity hnd fun i hi => by
    rcases List.mem_cons.mp hi with rfl | hi
    exacts [⟨s, hs.1⟩, hcs.used hi]
  obtain ⟨fuel, hfuel⟩ : ∃ k, d.capacity = k + 1 := ⟨d.capacity - 1, by simp at hcap; omega⟩
  have hlen : cs.nodes.length ≤ fuel := by
    rw [length_nodes]
    simp at hcap
    omega
  have hperm : (d.backward d.capacity id).Perm (id :: cs.nodes.map (·.1)) := by
    rw [hfuel, backward, hs.children_eq, hch]
    exact .cons _ (((List.reverse_perm _).flatMap_right _).trans (backward_perm hcs hlen))
  have hids : ((d.backward d.capacity id).map NodeId.index).Perm (id.index :: cs.ids) := by
    simpa [Forest.ids_eq, Function.comp_def] using hperm.map NodeId.index
  obtain ⟨hsw, hag⟩ := freeSlots_spec hd (hids.nodup_iff.mpr hnd) fun x hx => by
    rcases List.mem_cons.mp (hperm.mem_iff.mp hx) with rfl | hx
    exacts [⟨s, hs⟩, hcs.nodes x hx]
  have honce : ∀ i, once ((d.backward d.capacity id).map NodeId.index) i =
      once (id.index :: cs.ids) i := fun i => by
    unfold once
    simp only [hids.mem_iff]
  exact ⟨hsw.perm hids (.refl _), hag.mono (fun i => (honce i).ge) fun i => (honce i).le⟩

theorem once_node (hnd : (Forest.node id data cs ow rest).ids.Nodup) (i : Nat) :
    once (Forest.node id data cs ow rest).ids i =
      once (id.index :: cs.ids) i + (once ow.ids i + once rest.ids i) := by
  obtain ⟨hid, -, hcow, hcr, howr⟩ := Forest.nodup_node hnd
  rw [← once_append howr, ← once_append]
  · rfl
  · simp only [List.disjoint_cons_left, List.disjoint_append_right]
    exact ⟨⟨hid.2.1, hcow⟩, hid.2.2, hcr⟩

/-- The released nodes of a forest take along what stands below them, and nothing else. -/
theorem release_spec (hd : d.Sound) (hf : Held d p o f) (hnd : f.ids.Nodup) :
    Swapped f.ids [] d (f.tops.foldl release d) ∧
      Aged (once f.ids) (once f.ids) d (f.tops.foldl release d) := by
  induction f generalizing p o d with
  | nil => exact ⟨Swapped.refl _ d, (Aged.refl hd).mono (by simp [Forest.ids]) (by simp [Forest.ids])⟩
  | node id data cs ow rest _ iho ihr =>
    have honce := once_node hnd
    obtain ⟨h1, h2, h3, h4⟩ := hf
    obtain ⟨hid, hnds, hcow, hcr, howr⟩ := Forest.nodup_node hnd
    obtain ⟨hsw1, hag1⟩ := release_node hd h1 rfl h2 (List.nodup_cons.mpr ⟨hid.1, hnds.1⟩)
    have hd1 := hsw1.sound hd
    have h3' := hsw1.held h3 fun i hi => by
      simpa using ⟨fun h => hid.2.1 (h ▸ hi), fun h => hcow h hi⟩
    have h4' := hsw1.held h4 fun i hi => by
      simpa using ⟨fun h => hid.2.2 (h ▸ hi), fun h => hcr h hi⟩
    obtain ⟨hsw2, hag2⟩ := iho hd1 h3' hnds.2.1
    obtain ⟨hsw3, hag3⟩ := ihr (hsw2.sound hd1) (hsw2.held h4' fun i hi h => howr h hi) hnds.2.2
    simp only [Forest.tops, List.foldl_cons, List.foldl_append]
    refine ⟨?_, (hag1.trans (hag2.trans hag3)).mono (fun i => (honce i).le) fun i => (honce i).ge⟩
    have h := ((hsw1.extend ow.ids).trans hsw2).extend rest.ids
    refine (h.trans hsw3).perm ?_ (.refl _)
    simp [Forest.ids]

theorem removeChildren_spec (hd : d.Sound) (hst : Stands d id sp none [] [] cs) :
    Turns id sp none [] [] cs .nil d (d.removeChildren id) ∧
      Aged (once cs.ids) (once cs.ids) d (d.removeChildren id) := by
  have hself := hst.parent
  simp only [List.nil_append, List.append_nil] at hself
  have hsw1 := swapped_update (f := fun s => { s with children := [] }) (fun _ => rfl) hself
  have hag1 := aged_update (f := fun s => { s with children := [] }) (fun _ => rfl) hd hself
  have hne : ∀ i ∈ cs.ids, i ∉ [id.index] := fun i hi h =>
    hst.apart (List.mem_singleton.mp h ▸ hi)
  obtain ⟨hsw2, hag2⟩ := release_spec (hsw1.sound hd) (hsw1.held hst.held hne) hst.nodup
  have hself' := hself.update (f := fun s => { s with children := [] }) (fun _ => rfl)
  unfold removeChildren
  rw [hself.children_eq]
  refine ⟨hst.turns ?_ ?_ trivial List.nodup_nil (by simp [Forest.ids]),
    (hag1.trans hag2).mono (by simp) (by simp)⟩
  · exact (hsw1.extend cs.ids).trans ((hsw2.extend [id.index]).perm List.perm_append_comm (.refl _))
  · exact hsw2.holds hself' hst.apart

/-- New markup takes the place of all that stands below a node. -/
theorem setInnerHtml_spec (hd : d.Sound) (hst : Stands d id sp none [] [] cs) (html : List Char) :
    ∃ g, Turns id sp none [] [] cs g d (d.setInnerHtml id html) ∧
      g.shape = Forest.ofTrees (Tree.parse html) ∧
      Aged (once cs.ids) (once cs.ids) d (d.setInnerHtml id html) := by
  obtain ⟨ht1, hag1⟩ := removeChildren_spec hd hst
  obtain ⟨g, ht2, hs, hag2⟩ := graftAll_spec (Tree.parse html) (ht1.swapped.sound hd) ht1.stands
  exact ⟨g, ht1.trans ht2, hs, hag1.trans hag2⟩

end LiveMarkup.Document
