import LiveMarkup.Proofs.Document.Changes

/-!
# New nodes in well-formed documents

New nodes stand in slots that were free or did not exist, and no slot is freed for them (`Grows`).
Markup may be grafted onto any node whose handle was given out (`Issued`), also when that node is
gone (`WellFormed.graftAll`).
-/

namespace LiveMarkup.Document

open Relation

variable {d d' d'' : Document} {x y c p q : NodeId} {s t : Slot} {e : NodeId → Slot → Slot}

/-- A handle finds a live node or nothing. -/
def Finds (d : Document) (x : NodeId) : Prop :=
  d.contains x = true → d.Live x

/-- A handle may have been given out: its slot exists, and it finds a live node or nothing. -/
structure Issued (d : Document) (x : NodeId) : Prop where
  lt : x.index < d.slots.size
  finds : d.Finds x

/-- No slot was freed. -/
def Grown (d d' : Document) : Prop :=
  ∀ (i : Nat) (s : Slot), d.slots[i]? = some s → ∃ s', d'.slots[i]? = some s' ∧
    s'.generation = s.generation ∧ (i ∈ d'.free → i ∈ d.free)

theorem live_of_contains (h : d.contains x = true) (hx : x.index ∉ d.free) : d.Live x := by
  obtain ⟨s, hs⟩ := Option.isSome_iff_exists.mp h
  obtain ⟨h1, h2⟩ := Option.filter_eq_some_iff.mp hs
  exact ⟨s, by rw [used?, if_neg hx, h1], by simpa using h2⟩

theorem Live.issued (h : d.Live x) : d.Issued x :=
  let ⟨_, hs⟩ := h
  ⟨lt_of_used? hs.1, fun _ => h⟩

theorem Issued.grown (h : d.Issued x) (hg : Grown d d') : d'.Issued x := by
  obtain ⟨s', hs', hgen, hfree⟩ := hg _ _ (Array.getElem?_eq_getElem h.lt)
  refine ⟨(Array.getElem?_eq_some_iff.mp hs').1, fun hx => live_of_contains hx fun hmem => ?_⟩
  -- what is found in a free slot would have been found there before
  have hbefore : d.contains x = true := by
    obtain ⟨t, ht⟩ := Option.isSome_iff_exists.mp hx
    obtain ⟨ht1, ht2⟩ := Option.filter_eq_some_iff.mp ht
    obtain rfl := Option.some.inj (hs'.symm.trans ht1)
    rw [contains, slot?, Array.getElem?_eq_getElem h.lt, Option.filter_some, if_pos]
    · rfl
    · simpa [hgen] using ht2
  obtain ⟨t, ht⟩ := h.finds hbefore
  exact not_mem_free ht (hfree hmem)

namespace Grown

theorem refl (d : Document) : Grown d d := fun _ s hs => ⟨s, hs, rfl, id⟩

theorem trans (h : Grown d d') (h' : Grown d' d'') : Grown d d'' := by
  intro i s hs
  obtain ⟨s', hs', hg, hf⟩ := h i s hs
  obtain ⟨s'', hs'', hg', hf'⟩ := h' i s' hs'
  exact ⟨s'', hs'', hg'.trans hg, fun hi => hf (hf' hi)⟩

end Grown

/-- Writing into nodes frees no slot. -/
theorem Rewrites.grown (h : Rewrites e d d') : Grown d d' := by
  intro i s hs
  by_cases hi : i ∈ d.free
  · obtain ⟨s', hs', ⟨hg, -⟩ | ⟨-, -, hnot⟩⟩ := h.freed i s hs
    · exact ⟨s', hs', hg, fun _ => hi⟩
    · exact absurd hi hnot
  · have hx : d.Holds ⟨i, s.generation⟩ s := ⟨by rw [used?, if_neg hi, hs], rfl⟩
    have hx' := h.holds_of hx
    exact ⟨_, slots_of_used? hx'.1, hx'.2, fun hi' => absurd hi' (not_mem_free hx')⟩

theorem Moved.rewrites (h : Moved c p d d') : ∃ e, Rewrites e d d' :=
  let ⟨_, _, _, _, _, h⟩ := h
  ⟨_, h⟩

theorem Moved.grown (h : Moved c p d d') : Grown d d' :=
  let ⟨_, h⟩ := h.rewrites
  h.grown

theorem Moved.live_iff (h : Moved c p d d') : d'.Live x ↔ d.Live x :=
  let ⟨_, h⟩ := h.rewrites
  h.live_iff

/-- New nodes were made, and the old ones are kept. -/
structure Grows (d d' : Document) : Prop where
  wellFormed : d'.WellFormed
  grown : Grown d d'
  keeps : Keeps {x | d.Live x} d d'

theorem Grows.refl (hd : d.WellFormed) : Grows d d := ⟨hd, .refl d, .refl _ d⟩

theorem Grows.trans (h : Grows d d') (h' : Grows d' d'') : Grows d d'' :=
  ⟨h'.wellFormed, h.grown.trans h'.grown,
    h.keeps.trans (h'.keeps.mono fun _ hx => h.keeps.live hx hx)⟩

/-! ## A new node -/

theorem create_grown (d : Document) (data : NodeData) : Grown d (d.create data).2 := by
  intro i s hs
  unfold create
  rcases hfree : d.free with _ | ⟨j, free⟩
  · refine ⟨s, ?_, rfl, by simp⟩
    have hlt := (Array.getElem?_eq_some_iff.mp hs).1
    rw [Array.getElem?_push, if_neg (by omega), hs]
  · by_cases hi : i = j
    · subst hi
      have hlt := (Array.getElem?_eq_some_iff.mp hs).1
      refine ⟨_, by rw [Array.getElem?_setIfInBounds, if_pos rfl, if_pos hlt], ?_, fun hi => ?_⟩
      · rw [hs]
        rfl
      · exact List.mem_cons_of_mem i hi
    · refine ⟨s, ?_, rfl, fun hi => List.mem_cons_of_mem j hi⟩
      rw [Array.getElem?_setIfInBounds, if_neg (Ne.symm hi), hs]

theorem Blank.create (hd : d.Blank) (hs : d.Sound) (data : NodeData) : (d.create data).2.Blank := by
  unfold Document.create
  rcases hfree : d.free with _ | ⟨j, free⟩
  · intro i hi
    cases hi
  · intro i hi
    have hnd := hs.nodup
    rw [hfree, List.nodup_cons] at hnd
    have hne : j ≠ i := fun h => hnd.1 (h ▸ hi)
    obtain ⟨g, hg⟩ := hd i (hfree ▸ List.mem_cons_of_mem j hi)
    exact ⟨g, by rw [Array.getElem?_setIfInBounds, if_neg hne, hg]⟩

/-- The handle of a new node was not given out before. -/
theorem not_issued_create (hd : d.Sound) (data : NodeData) : ¬ d.Issued (d.create data).1 := by
  intro h
  obtain ⟨hnone, -⟩ := create_spec hd data
  have hcontains : d.contains (d.create data).1 = true := by
    have hlt := h.lt
    unfold create at hlt ⊢
    rcases hfree : d.free with _ | ⟨j, free⟩ <;> rw [hfree] at hlt
    · exact absurd hlt (Nat.lt_irrefl _)
    · have hlt : j < d.slots.size := hlt
      simp [contains, slot?, Array.getElem?_eq_getElem hlt, Option.filter_some]
  obtain ⟨s, hs⟩ := h.finds hcontains
  rw [hs.1] at hnone
  cases hnone

/-- A new node stands alone. -/
structure Fresh (c : NodeId) (data : NodeData) (d d' : Document) : Prop where
  grows : Grows d d'
  holds : d'.Holds c { data, generation := c.generation }
  new : ¬ d.Issued c
  old : ∀ x t, d'.Holds x t → x = c ∨ d.Holds x t

theorem WellFormed.create (hd : d.WellFormed) (data : NodeData) :
    Fresh (d.create data).1 data d (d.create data).2 := by
  obtain ⟨hnone, -, hnew, hsw, -⟩ := create_spec hd.toSound data
  have hnot := not_issued_create hd.toSound data
  have hgrown := create_grown d data
  have hblank := hd.blank.create hd.toSound data
  generalize (d.create data).1 = c at hnone hnew hsw hnot
  generalize (d.create data).2 = d' at hnew hsw hgrown hblank
  have hkeep : ∀ x s, d.Holds x s → d'.Holds x s := fun x s hs =>
    hsw.holds hs List.not_mem_nil
  have hold : ∀ x t, d'.Holds x t → x = c ∨ d.Holds x t := fun x t ht => by
    by_cases hi : x.index = c.index
    · exact .inl (ht.eq_of_index_eq hnew hi)
    · have hframe := hsw.frame x.index List.not_mem_nil (by simpa using hi)
      exact .inr ⟨hframe.symm.trans ht.1, ht.2⟩
  have hunder : ∀ {x p}, d'.Under x p → d.Under x p := fun {x p} ⟨t, ht, hp⟩ => by
    rcases hold x t ht with rfl | ht
    · obtain rfl := ht.unique hnew
      cases hp
    · exact ⟨t, ht, hp⟩
  have hamong : ∀ {x p}, d'.Among x p → d.Among x p := fun {x p} ⟨t, ht, hx⟩ => by
    rcases hold p t ht with rfl | ht
    · obtain rfl := ht.unique hnew
      cases hx
    · exact ⟨t, ht, hx⟩
  refine ⟨⟨⟨⟨hsw.sound hd.toSound, hblank, fun hx => ?_, fun {p t} ht => ?_, fun x hx => ?_⟩,
    fun hx => ?_, ?_⟩, hgrown, keeps_of_holds hkeep⟩, hnew, hnot, hold⟩
  · obtain ⟨s, hs, hp⟩ := hd.child (hamong hx)
    exact ⟨s, hkeep _ s hs, hp⟩
  · rcases hold p t ht with rfl | ht
    · obtain rfl := ht.unique hnew
      exact List.nodup_nil
    · exact hd.distinct ht
  · exact hd.acyclic x (TransGen.mono (fun _ _ => hunder) _ _ hx)
  · obtain ⟨s, hs, hx⟩ := hd.parent (hunder hx)
    exact ⟨s, hkeep _ s hs, hx⟩
  · obtain ⟨s, hs, hnone⟩ := hd.rooted
    exact ⟨s, hkeep _ s hs, hnone⟩

section

variable {data : NodeData}

theorem Fresh.not_live (h : Fresh c data d d') : ¬ d.Live c := fun hc => h.new hc.issued

/-- Nothing stands below a new node. -/
theorem Fresh.not_above (h : Fresh c data d d') (hd : d.WellFormed) (hp : d.Issued p) :
    ¬ ReflTransGen d'.Under p c := by
  intro hpc
  rcases hpc.cases_tail with rfl | ⟨y, -, t, ht, hyc⟩
  · exact h.new hp
  · rcases h.old y t ht with rfl | ht
    · obtain rfl := ht.unique h.holds
      cases hyc
    · obtain ⟨s, hs, -⟩ := hd.parent ⟨t, ht, hyc⟩
      exact h.not_live ⟨s, hs⟩

theorem Fresh.ne_root (h : Fresh c data d d') (hd : d.WellFormed) : c ≠ root := by
  rintro rfl
  obtain ⟨s, hs, -⟩ := hd.rooted
  exact h.not_live ⟨s, hs⟩

/-- A new node goes below a node, unless that one is gone. -/
theorem Fresh.append (h : Fresh c data d d') (hd : d.WellFormed) (hp : d.Issued p) :
    Grows d (d'.appendChild p c) ∧ (d'.appendChild p c).Issued c := by
  have hc : d'.Live c := h.holds.live
  by_cases hcontains : d'.contains p = true
  · have hp' := (hp.grown h.grows.grown).finds hcontains
    have hnot := h.not_above hd hp
    have hmoved := h.grows.wellFormed.appendChild hc hp' fun h => hnot (h ▸ .refl)
    refine ⟨⟨hmoved.wellFormed h.grows.wellFormed hc (h.ne_root hd) hnot,
      h.grows.grown.trans hmoved.grown, h.grows.keeps.trans (hmoved.keeps h.not_live)⟩,
      hc.issued.grown hmoved.grown⟩
  · unfold Document.appendChild
    rw [if_neg (by simp [hcontains])]
    exact ⟨h.grows, hc.issued⟩

end

/-! ## Grafting -/

theorem WellFormed.graftAll : ∀ (ts : List Tree) {d : Document} {p : NodeId}, d.WellFormed →
    d.Issued p → Grows d (d.graftAll p ts)
  | [], d, p, hd, _ => by
    rw [Document.graftAll]
    exact .refl hd
  | .node data ts :: rest, d, p, hd, hp => by
    rw [Document.graftAll, graft]
    obtain ⟨h0, hc⟩ := (hd.create data).append hd hp
    have h1 := graftAll ts h0.wellFormed hc
    have h2 := graftAll rest h1.wellFormed ((hp.grown h0.grown).grown h1.grown)
    exact h0.trans (h1.trans h2)

/-- A new fragment is a new node with markup grafted onto it. -/
theorem WellFormed.createFragment (hd : d.WellFormed) (html : List Char) :
    ∃ d0, Fresh (d.createFragment html).1 .fragment d d0 ∧ Grows d0 (d.createFragment html).2 := by
  have hfresh := hd.create .fragment
  exact ⟨_, hfresh, WellFormed.graftAll _ hfresh.grows.wellFormed hfresh.holds.live.issued⟩

end LiveMarkup.Document
