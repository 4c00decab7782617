import Mathlib.Logic.Relation
import Mathlib.Data.List.Flatten
import LiveMarkup.Proofs.Document.Walk

/-!
# Well-formed documents

In a well-formed document the links of a node to its parent and the lists of children say the same,
no node stands below itself, and nothing is left in a free slot (`WellFormed`).

The walk backward from a node comes to the nodes at or below it, each once
(`Downward.mem_backward_iff`, `Downward.nodup_backward`), so that just these are gone when it is
released (`Downward.holds_release`).
-/

namespace LiveMarkup.Document

open Relation

/-- A handle names a node that has not been removed. -/
def Live (d : Document) (x : NodeId) : Prop :=
  ∃ s, d.Holds x s

/-- A node has a link to its parent. -/
def Under (d : Document) (x p : NodeId) : Prop :=
  ∃ s, d.Holds x s ∧ s.parent = some p

/-- A node is listed among the children of another one. -/
def Among (d : Document) (x p : NodeId) : Prop :=
  ∃ s, d.Holds p s ∧ x ∈ s.children

/-- Nothing is left in a free slot. -/
def Blank (d : Document) : Prop :=
  ∀ i ∈ d.free, ∃ generation, d.slots[i]? = some { data := .fragment, generation }

/-- Below a node that is listed among the children of another one stands a tree. -/
structure Downward (d : Document) : Prop extends Sound d where
  blank : d.Blank
  /-- Listed children are there, and linked to the node that lists them. -/
  child : ∀ {x p : NodeId}, d.Among x p → d.Under x p
  /-- No child is listed twice. -/
  distinct : ∀ {p : NodeId} {s : Slot}, d.Holds p s → s.children.Nodup
  /-- No node stands below itself. -/
  acyclic : ∀ x : NodeId, ¬ TransGen d.Under x x

/-- Links to parents and lists of children fit together, and the root is on top. -/
structure WellFormed (d : Document) : Prop extends Downward d where
  /-- A parent is there, and lists the nodes that are linked to it. -/
  parent : ∀ {x p : NodeId}, d.Under x p → d.Among x p
  /-- The root is there, and has no parent. -/
  rooted : d.Rooted

variable {d d' d'' : Document} {x y c p q : NodeId} {s t : Slot} {f : Slot → Slot}

theorem Holds.live (h : d.Holds x s) : d.Live x :=
  ⟨s, h⟩

theorem Under.live (h : d.Under x p) : d.Live x :=
  let ⟨s, hs, _⟩ := h
  ⟨s, hs⟩

theorem Holds.under_iff (h : d.Holds x s) : d.Under x p ↔ s.parent = some p :=
  ⟨fun ⟨_, ht, hp⟩ => ht.unique h ▸ hp, fun hp => ⟨s, h, hp⟩⟩

theorem live_of_below (h : TransGen d.Under x p) : d.Live x :=
  let ⟨_, hy, _⟩ := TransGen.head'_iff.mp h
  hy.live

theorem Under.unique (h : d.Under x p) (h' : d.Under x q) : p = q := by
  obtain ⟨s, hs, hp⟩ := h
  obtain ⟨t, ht, hq⟩ := h'
  obtain rfl := hs.unique ht
  exact Option.some.inj (hp.symm.trans hq)

theorem Live.contains (h : d.Live x) : d.contains x = true :=
  let ⟨_, hs⟩ := h
  hs.contains_eq

/-- Live nodes are told apart by their slots. -/
theorem Live.eq_of_index_eq (h : d.Live x) (h' : d.Live y) (hi : x.index = y.index) : x = y := by
  obtain ⟨s, hs⟩ := h
  obtain ⟨t, ht⟩ := h'
  exact hs.eq_of_index_eq ht hi

namespace Downward

variable (hd : d.Downward)
include hd

theorem under_of_below (h : ReflTransGen d.Among x c) : ReflTransGen d.Under x c :=
  ReflTransGen.mono (fun _ _ => hd.child) _ _ h

theorem not_below (h : d.Under x p) : ¬ ReflTransGen d.Under p x := fun h' =>
  hd.acyclic x (.head' h h')

/-- A node stands below one child of another node only. -/
theorem eq_of_below {b : NodeId} (hc : d.Among c p) (hb : d.Among b p)
    (hxc : ReflTransGen d.Among x c) (hxb : ReflTransGen d.Among x b) : c = b := by
  have hunique : Relator.RightUnique d.Under := fun _ _ _ h h' => h.unique h'
  have heq : ∀ {u v : NodeId}, d.Under u p → d.Under v p → ReflTransGen d.Under u v → u = v := by
    intro u v hu hv h
    rcases h.cases_head with rfl | ⟨w, hw, h⟩
    · rfl
    · obtain rfl := hw.unique hu
      exact absurd h (hd.not_below hv)
  rcases ReflTransGen.total_of_right_unique hunique (hd.under_of_below hxc) (hd.under_of_below hxb)
    with h | h
  · exact heq (hd.child hc) (hd.child hb) h
  · exact (heq (hd.child hb) (hd.child hc) h).symm

/-- The nodes on a way downward are different, and no more than there are slots. -/
theorem length_lt {l : List NodeId} (hc : d.Live c)
    (h : List.IsChain (fun p x => d.Among x p) (c :: l)) : l.length < d.capacity := by
  have hlive : ∀ y ∈ c :: l, d.Live y := by
    intro y hy
    induction l generalizing c with
    | nil => exact List.mem_singleton.mp hy ▸ hc
    | cons z l ih =>
      rw [List.isChain_cons_cons] at h
      rcases List.mem_cons.mp hy with rfl | hy
      · exact hc
      · exact ih (hd.child h.1).live h.2 hy
  have hpair : (c :: l).Pairwise fun p x => TransGen d.Under x p :=
    haveI : IsTrans NodeId fun p x => TransGen d.Under x p := ⟨fun _ _ _ h h' => h'.trans h⟩
    (h.imp fun _ _ h => TransGen.single (hd.child h)).pairwise
  have hnodup : ((c :: l).map NodeId.index).Nodup := by
    refine List.pairwise_map.mpr (hpair.imp_of_mem fun {p x} hp hx h heq => ?_)
    obtain rfl := (hlive p hp).eq_of_index_eq (hlive x hx) heq
    exact hd.acyclic p h
  have := length_le_capacity hnodup fun i hi => by
    obtain ⟨y, hy, rfl⟩ := List.mem_map.mp hi
    obtain ⟨s, hs⟩ := hlive y hy
    exact ⟨s, hs.1⟩
  simpa [Nat.succ_le_iff] using this

/-- What is found through a handle belongs to a live node, or is blank. -/
theorem slot?_cases (h : d.slot? x = some s) :
    d.Holds x s ∨ ∃ generation, s = { data := .fragment, generation } := by
  unfold slot? at h
  obtain ⟨h1, h2⟩ := Option.filter_eq_some_iff.mp h
  by_cases hfree : x.index ∈ d.free
  · obtain ⟨g, hg⟩ := hd.blank _ hfree
    exact .inr ⟨g, Option.some.inj (h1.symm.trans hg)⟩
  · exact .inl ⟨by rw [used?, if_neg hfree, h1], by simpa using h2⟩

theorem mem_children_iff : x ∈ d.children p ↔ d.Among x p := by
  constructor
  · intro h
    unfold children at h
    rcases hs : d.slot? p with _ | s <;> rw [hs] at h
    · cases h
    · rcases hd.slot?_cases hs with hs | ⟨g, rfl⟩
      · exact ⟨s, hs, h⟩
      · cases h
  · rintro ⟨s, hs, hx⟩
    rwa [hs.children_eq]

theorem parent?_eq_some_iff : d.parent? x = some p ↔ d.Under x p := by
  constructor
  · intro h
    unfold parent? at h
    obtain ⟨s, hs, hp⟩ := Option.bind_eq_some_iff.mp h
    rcases hd.slot?_cases hs with hs | ⟨g, rfl⟩
    · exact ⟨s, hs, hp⟩
    · cases hp
  · rintro ⟨s, hs, hp⟩
    rwa [hs.parent?_eq]

end Downward

/-! ## What is released with a node -/

namespace Downward

variable (hd : d.Downward)
include hd

theorem below_of_mem_backward : ∀ {n : Nat} {c : NodeId}, x ∈ d.backward n c →
    ReflTransGen d.Among x c
  | 0, c, h => by
    rw [backward, List.mem_singleton] at h
    exact h ▸ .refl
  | n + 1, c, h => by
    rw [backward, List.mem_cons, List.mem_flatMap] at h
    rcases h with rfl | ⟨z, hz, hx⟩
    · exact .refl
    · exact (below_of_mem_backward hx).tail (hd.mem_children_iff.mp (List.mem_reverse.mp hz))

theorem mem_backward_of_chain : ∀ {n : Nat} {l : List NodeId} {c : NodeId},
    List.IsChain (fun p x => d.Among x p) (c :: l) → l.length ≤ n →
      ∀ x ∈ c :: l, x ∈ d.backward n c
  | n, [], c, _, _, x, hx => by
    rw [List.mem_singleton.mp hx]
    cases n <;> simp [backward]
  | n, z :: l, c, h, hlen, x, hx => by
    obtain ⟨n, rfl⟩ : ∃ k, n = k + 1 := ⟨n - 1, by simp at hlen; omega⟩
    rw [List.isChain_cons_cons] at h
    rw [backward, List.mem_cons, List.mem_flatMap]
    rcases List.mem_cons.mp hx with rfl | hx
    · exact .inl rfl
    · exact .inr ⟨z, List.mem_reverse.mpr (hd.mem_children_iff.mpr h.1),
        mem_backward_of_chain h.2 (by simpa using hlen) x hx⟩

/-- The walk backward from a node comes to all nodes at or below it. -/
theorem mem_backward_iff (hc : d.Live c) :
    x ∈ d.backward d.capacity c ↔ ReflTransGen d.Among x c := by
  refine ⟨hd.below_of_mem_backward, fun h => ?_⟩
  obtain ⟨l, hl, hlast⟩ := List.exists_isChain_cons_of_relationReflTransGen
    (ReflTransGen.swap _ _ h)
  refine hd.mem_backward_of_chain hl (hd.length_lt hc hl).le x ?_
  exact hlast ▸ List.getLast_mem _

theorem nodup_backward : ∀ {n : Nat} {c : NodeId}, d.Live c → (d.backward n c).Nodup
  | 0, c, _ => List.nodup_singleton c
  | n + 1, c, hc => by
    obtain ⟨s, hs⟩ := hc
    have hmem : ∀ z ∈ s.children.reverse, d.Among z c := fun z hz => ⟨s, hs, List.mem_reverse.mp hz⟩
    rw [backward, hs.children_eq, List.nodup_cons, List.nodup_flatMap]
    refine ⟨fun h => ?_, fun z hz => nodup_backward (hd.child (hmem z hz)).live, ?_⟩
    · obtain ⟨z, hz, hcz⟩ := List.mem_flatMap.mp h
      exact hd.not_below (hd.child (hmem z hz)) (hd.under_of_below (hd.below_of_mem_backward hcz))
    · refine (List.nodup_reverse.mpr (hd.distinct hs)).imp_of_mem fun {z z'} hz hz' hne => ?_
      intro w hw hw'
      exact hne (hd.eq_of_below (hmem z hz) (hmem z' hz') (hd.below_of_mem_backward hw)
        (hd.below_of_mem_backward hw'))

end Downward

/-! ## Walks upward -/

theorem WellFormed.among_iff (hd : d.WellFormed) : d.Among x p ↔ d.Under x p :=
  ⟨hd.child, hd.parent⟩

theorem WellFormed.transGen_of_mem_ancestorsTo (hd : d.WellFormed) : ∀ {n : Nat} {x : NodeId},
    y ∈ d.ancestorsTo n x → TransGen d.Under x y
  | 0, x, h => by cases h
  | n + 1, x, h => by
    rw [ancestorsTo] at h
    rcases hparent : d.parent? x with _ | p <;> rw [hparent] at h
    · cases h
    · have hx := hd.parent?_eq_some_iff.mp hparent
      rcases List.mem_cons.mp h with rfl | h
      · exact .single hx
      · exact .head hx (hd.transGen_of_mem_ancestorsTo h)

/-- The walk upward from a node comes to all nodes above it. -/
theorem WellFormed.isDescendant_iff (hd : d.WellFormed) :
    d.isDescendant y x = true ↔ TransGen d.Under x y := by
  unfold isDescendant ancestors
  rw [decide_eq_true_eq]
  refine ⟨hd.transGen_of_mem_ancestorsTo, fun h => ?_⟩
  have hy : d.Live y := by
    obtain ⟨z, -, hzy⟩ := TransGen.tail'_iff.mp h
    obtain ⟨s, hs, -⟩ := hd.parent hzy
    exact hs.live
  have hdown : ReflTransGen d.Among x y :=
    ReflTransGen.mono (fun _ _ => hd.parent) _ _ h.to_reflTransGen
  obtain ⟨l, hl, hlast⟩ := List.exists_isChain_cons_of_relationReflTransGen
    (ReflTransGen.swap _ _ hdown)
  have hlen := hd.length_lt hy hl
  have hup : List.IsChain d.Under (y :: l).reverse := by
    rw [List.isChain_reverse]
    exact hl.imp fun _ _ => hd.child
  rcases List.eq_nil_or_concat l with rfl | ⟨l, z, rfl⟩
  · obtain rfl : y = x := hlast
    exact absurd h (hd.acyclic y)
  · obtain rfl : z = x := by simpa using hlast
    have hrev : (y :: (l ++ [z])).reverse = z :: (l.reverse ++ [y]) := by simp
    rw [List.concat_eq_append, hrev] at hup
    exact mem_ancestorsTo hup (by simpa using hlen.le) y (by simp)

theorem WellFormed.isAttached_iff (hd : d.WellFormed) :
    d.isAttached x = true ↔ ReflTransGen d.Under x Document.root := by
  have h := hd.isDescendant_iff (x := x) (y := Document.root)
  unfold isDescendant at h
  unfold isAttached
  rw [Bool.or_eq_true, h, decide_eq_true_eq, reflTransGen_iff_eq_or_transGen, eq_comm (a := x)]

/-! ## Slots that are given up -/

/-- Slots were given up, each once at most, and none was taken. -/
def Freed (d d' : Document) : Prop :=
  ∀ (i : Nat) (s : Slot), d.slots[i]? = some s → ∃ s', d'.slots[i]? = some s' ∧
    (s'.generation = s.generation ∧ (i ∈ d'.free ↔ i ∈ d.free) ∨
      s'.generation = (s.generation + 1) % generations ∧ i ∈ d'.free ∧ i ∉ d.free)

theorem Freed.refl (d : Document) : Freed d d := fun _ s hs => ⟨s, hs, .inl ⟨rfl, .rfl⟩⟩

theorem Freed.trans (h : Freed d d') (h' : Freed d' d'') : Freed d d'' := by
  intro i s hs
  obtain ⟨s', hs', h1⟩ := h i s hs
  obtain ⟨s'', hs'', h2⟩ := h' i s' hs'
  refine ⟨s'', hs'', ?_⟩
  rcases h1 with ⟨hg, hf⟩ | ⟨hg, hf, hnot⟩ <;> rcases h2 with ⟨hg', hf'⟩ | ⟨hg', hf', hnot'⟩
  · exact .inl ⟨hg'.trans hg, hf'.trans hf⟩
  · exact .inr ⟨hg ▸ hg', hf', fun h => hnot' (hf.mpr h)⟩
  · exact .inr ⟨hg'.trans hg, hf'.mpr hf, hnot⟩
  · exact absurd hf hnot'

theorem freed_freeSlot (h : d.Holds c s) : Freed d (d.freeSlot c) := by
  intro i t ht
  rw [slots_freeSlot h, free_freeSlot h]
  by_cases hi : i = c.index
  · subst hi
    obtain rfl := Option.some.inj ((slots_of_used? h.1).symm.trans ht)
    exact ⟨_, if_pos rfl, .inr ⟨rfl, List.mem_cons_self, not_mem_free h⟩⟩
  · exact ⟨t, by rw [if_neg hi, ht], .inl ⟨rfl, by simp [hi]⟩⟩

theorem Blank.freeSlot (hd : d.Blank) (h : d.Holds c s) : (d.freeSlot c).Blank := by
  intro i hi
  rw [slots_freeSlot h]
  by_cases hic : i = c.index
  · exact ⟨_, if_pos hic⟩
  · rw [free_freeSlot h] at hi
    rw [if_neg hic]
    exact hd i ((List.mem_cons.mp hi).resolve_left hic)

/-- Freeing live nodes leaves nothing in their slots. -/
theorem freeSlots_rest : ∀ {xs : List NodeId} {d : Document}, (xs.map NodeId.index).Nodup →
    (∀ x ∈ xs, d.Live x) →
      (d.Blank → (xs.foldl freeSlot d).Blank) ∧ Freed d (xs.foldl freeSlot d)
  | [], d, _, _ => ⟨id, Freed.refl d⟩
  | x :: xs, d, hnd, hall => by
    obtain ⟨s, hs⟩ := hall x List.mem_cons_self
    obtain ⟨-, hsw, -⟩ := freeSlot_spec hs
    simp only [List.map_cons, List.nodup_cons] at hnd
    obtain ⟨hblank, hfreed⟩ := freeSlots_rest hnd.2 fun y hy => by
      obtain ⟨t, ht⟩ := hall y (List.mem_cons_of_mem x hy)
      refine ⟨t, hsw.holds ht fun h => hnd.1 ?_⟩
      exact List.mem_singleton.mp h ▸ List.mem_map_of_mem hy
    exact ⟨fun hd => hblank (hd.freeSlot hs), (freed_freeSlot hs).trans hfreed⟩

/-- A released node takes along just what is listed below it. -/
theorem Downward.holds_release (hd : d.Downward) (hc : d.Live c) :
    ((d.release c).Sound ∧ (d.release c).Blank ∧ Freed d (d.release c)) ∧
    ∀ x t, (d.release c).Holds x t ↔ d.Holds x t ∧ ¬ ReflTransGen d.Among x c := by
  have hlive : ∀ x ∈ d.backward d.capacity c, d.Live x := fun x hx => by
    rcases (hd.mem_backward_iff hc).mp hx |>.cases_head with rfl | ⟨y, hxy, -⟩
    · exact hc
    · exact (hd.child hxy).live
  have hnodup : ((d.backward d.capacity c).map NodeId.index).Nodup :=
    List.pairwise_map.mpr ((hd.nodup_backward hc).imp_of_mem fun hx hy hne heq =>
      hne ((hlive _ hx).eq_of_index_eq (hlive _ hy) heq))
  obtain ⟨hsw, -⟩ := freeSlots_spec hd.toSound hnodup hlive
  obtain ⟨hblank, hfreed⟩ := freeSlots_rest hnodup hlive
  refine ⟨⟨hsw.sound hd.toSound, hblank hd.blank, hfreed⟩, fun x t => ?_⟩
  rw [← hd.mem_backward_iff hc]
  constructor
  · intro h
    have hnot : x.index ∉ (d.backward d.capacity c).map NodeId.index := fun hx => by
      have hgone := (hsw.gone _ hx).resolve_left List.not_mem_nil
      exact absurd (h.1.symm.trans hgone) (Option.some_ne_none t)
    refine ⟨⟨(hsw.frame _ hnot List.not_mem_nil).symm.trans h.1, h.2⟩, fun hx => hnot ?_⟩
    exact List.mem_map_of_mem hx
  · rintro ⟨h, hnot⟩
    refine hsw.holds h fun hx => hnot ?_
    obtain ⟨y, hy, heq⟩ := List.mem_map.mp hx
    exact (hlive y hy).eq_of_index_eq ⟨t, h⟩ heq ▸ hy

/-- Slots stay in order, and each is freed once at most. -/
structure Tidy (d d' : Document) : Prop where
  sound : d.Sound → d'.Sound
  blank : d.Blank → d'.Blank
  freed : Freed d d'

theorem Tidy.refl (d : Document) : Tidy d d := ⟨id, id, Freed.refl d⟩

theorem Tidy.trans (h : Tidy d d') (h' : Tidy d' d'') : Tidy d d'' :=
  ⟨fun hd => h'.sound (h.sound hd), fun hd => h'.blank (h.blank hd), h.freed.trans h'.freed⟩

end LiveMarkup.Document
