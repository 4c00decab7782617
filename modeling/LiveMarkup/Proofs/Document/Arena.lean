import LiveMarkup.Proofs.Document.Steady

/-!
# Runs of operations on a document

Whatever operations are applied to a parsed document one after the other, it stays well-formed as
long as each of them is legal: the root is not moved, no node is placed below itself, and no handle
finds a free slot (`wellFormed_run`).

A handle could find a free slot only if the generations of that slot have all come up since the
handle was given out.  An operation frees no slot twice, so this takes at least `generations`
operations.
-/

namespace LiveMarkup.Document

/-- What can be done to a document. -/
inductive Operation where
  | create (data : NodeData)
  | createFragment (html : List Char)
  | appendChild (parent child : NodeId)
  | insertAfter (reference child : NodeId)
  | detach (id : NodeId)
  | remove (id : NodeId)
  | removeChildren (id : NodeId)
  | setInnerHtml (id : NodeId) (html : List Char)
  | setOwner (id : NodeId) (owner : Option NodeId)
  | updateData (id : NodeId) (f : NodeData → NodeData)
  | clearOwned (marker : NodeId)
  | insertOwned (marker fragment : NodeId)
  | appendFragment (target fragment : NodeId)

namespace Operation

/-- A document after an operation. -/
def apply : Operation → Document → Document
  | create data, d => (d.create data).2
  | createFragment html, d => (d.createFragment html).2
  | appendChild p c, d => d.appendChild p c
  | insertAfter r c, d => (d.insertAfter r c).2
  | detach c, d => d.detach c
  | remove c, d => d.remove c
  | removeChildren c, d => d.removeChildren c
  | setInnerHtml c html, d => d.setInnerHtml c html
  | setOwner c owner, d => d.setOwner c owner
  | updateData c f, d => d.updateData c f
  | clearOwned m, d => (d.clearOwned m).2
  | insertOwned m c, d => (d.insertOwned m c).2
  | appendFragment p c, d => d.appendFragment p c

/-- The nodes that an operation is applied to. -/
def handles : Operation → List NodeId
  | create _ | createFragment _ => []
  | appendChild a b | insertAfter a b | insertOwned a b | appendFragment a b => [a, b]
  | detach a | remove a | removeChildren a | setInnerHtml a _ | setOwner a _ | updateData a _
  | clearOwned a => [a]

/-- The nodes that an operation moves, each with its new parent. -/
def moves (d : Document) : Operation → List (NodeId × NodeId)
  | appendChild p c => if d.contains c then [(c, p)] else []
  | insertAfter r c => (d.parent? r).toList.map (c, ·)
  | insertOwned m f => (d.children f).flatMap fun c => (d.parent? m).toList.map (c, ·)
  | appendFragment p f => (d.children f).map (·, p)
  | _ => []

/-- An operation is applied to handles that were given out, leaves the root in its place, and places
no node below itself. -/
structure Legal (op : Operation) (d : Document) : Prop where
  issued : ∀ h ∈ op.handles, d.Issued h
  placeable : ∀ c p, (c, p) ∈ op.moves d → d.Placeable c p

/-- A document after several operations. -/
def run (d : Document) (ops : List Operation) : Document :=
  ops.foldl (fun d op => op.apply d) d

/-- Each of several operations is legal when its turn comes. -/
def AllLegal : Document → List Operation → Prop
  | _, [] => True
  | d, op :: ops => op.Legal d ∧ AllLegal (op.apply d) ops

/-- Whether an operation is legal. -/
def isLegal (d : Document) (op : Operation) : Bool :=
  (op.handles.all fun h => h.index < d.slots.size && !(d.contains h && h.index ∈ d.free)) &&
    (op.moves d).all fun (c, p) => c ≠ root && c ≠ p && !d.isDescendant c p

/-- Whether each of several operations is legal when its turn comes. -/
def areLegal : Document → List Operation → Bool
  | _, [] => true
  | d, op :: ops => op.isLegal d && areLegal (op.apply d) ops

end Operation

variable {d d' d'' : Document} {c p x : NodeId} {m n : Nat} {op : Operation} {ops : List Operation}

open Operation

/-! ## How often slots are freed -/

/-- No slot was freed more than `n` times. -/
def Worn (n : Nat) (d d' : Document) : Prop :=
  ∀ (i : Nat) (s : Slot), d.slots[i]? = some s → ∃ k s', k ≤ n ∧ d'.slots[i]? = some s' ∧
    s'.generation = (s.generation + k) % generations ∧ (k = 0 → i ∈ d'.free → i ∈ d.free)

theorem Worn.trans (h : Worn m d d') (h' : Worn n d' d'') : Worn (m + n) d d'' := by
  intro i s hs
  obtain ⟨k, s', hk, hs', hg, hf⟩ := h i s hs
  obtain ⟨k', s'', hk', hs'', hg', hf'⟩ := h' i s' hs'
  refine ⟨k + k', s'', Nat.add_le_add hk hk', hs'', ?_, fun h0 hi => ?_⟩
  · rw [hg', hg, Nat.mod_add_mod, Nat.add_assoc]
  · exact hf (by omega) (hf' (by omega) hi)

theorem Worn.mono (h : Worn m d d') (hmn : m ≤ n) : Worn n d d' := by
  intro i s hs
  obtain ⟨k, s', hk, h⟩ := h i s hs
  exact ⟨k, s', hk.trans hmn, h⟩

theorem Freed.worn (h : Freed d d') (hd : d.Sound) : Worn 1 d d' := by
  intro i s hs
  obtain ⟨s', hs', ⟨hg, hf⟩ | ⟨hg, -, -⟩⟩ := h i s hs
  · refine ⟨0, s', Nat.zero_le _, hs', ?_, fun _ => hf.mp⟩
    rw [hg, Nat.add_zero, Nat.mod_eq_of_lt (hd.generations i s hs)]
  · exact ⟨1, s', le_rfl, hs', hg, by simp⟩

theorem Grown.worn (h : Grown d d') (hd : d.Sound) : Worn 0 d d' := by
  intro i s hs
  obtain ⟨s', hs', hg, hf⟩ := h i s hs
  refine ⟨0, s', le_rfl, hs', ?_, fun _ => hf⟩
  rw [hg, Nat.add_zero, Nat.mod_eq_of_lt (hd.generations i s hs)]

/-- The same generation does not come again before all others have come. -/
theorem eq_zero_of_add_mod {g k : Nat} (hg : g < generations) (hk : k < generations)
    (h : (g + k) % generations = g) : k = 0 := by
  rcases Nat.lt_or_ge (g + k) generations with hsum | hsum
  · rw [Nat.mod_eq_of_lt hsum] at h
    omega
  · rw [Nat.mod_eq_sub_mod hsum, Nat.mod_eq_of_lt (by omega)] at h
    omega

/-- A handle of a live node finds no free slot as long as its slot was not freed too often. -/
theorem Worn.issued (h : Worn n d d') (hx : d.Live x) (hn : n < generations) (hd : d.Sound) :
    d'.Issued x := by
  obtain ⟨s, hs⟩ := hx
  obtain ⟨k, s', hk, hs', hg, hf⟩ := h _ _ (slots_of_used? hs.1)
  refine ⟨(Array.getElem?_eq_some_iff.mp hs').1, fun hcontains => live_of_contains hcontains ?_⟩
  obtain ⟨t, ht⟩ := Option.isSome_iff_exists.mp hcontains
  obtain ⟨ht1, ht2⟩ := Option.filter_eq_some_iff.mp ht
  obtain rfl := Option.some.inj (hs'.symm.trans ht1)
  have heq : (s.generation + k) % generations = s.generation := by
    rw [← hg, hs.2]
    simpa using ht2
  have hk0 := eq_zero_of_add_mod (hd.generations _ _ (slots_of_used? hs.1)) (by omega) heq
  exact fun hfree => not_mem_free hs (hf hk0 hfree)

/-- A handle that names a node before and after, and whose slot was not freed too often, names a node
in between. -/
theorem Worn.live_between (h : Worn m d d') (h' : Worn n d' d'') (hx : d.Live x) (hx' : d''.Live x)
    (hmn : m + n < generations) (hd : d.Sound) : d'.Live x := by
  obtain ⟨s, hs⟩ := hx
  obtain ⟨t, ht⟩ := hx'
  obtain ⟨k, s', hk, hs', hg, hf⟩ := h _ _ (slots_of_used? hs.1)
  obtain ⟨k', t', hk', ht', hg', -⟩ := h' _ _ hs'
  obtain rfl := Option.some.inj (ht'.symm.trans (slots_of_used? ht.1))
  have hlt := hd.generations _ _ (slots_of_used? hs.1)
  have heq : (s.generation + (k + k')) % generations = s.generation := by
    rw [hg, Nat.mod_add_mod, Nat.add_assoc, ht.2, ← hs.2] at hg'
    exact hg'.symm
  have hk0 := eq_zero_of_add_mod hlt (by omega) heq
  obtain rfl : k = 0 := by omega
  refine ⟨s', ?_, by rw [hg, Nat.add_zero, Nat.mod_eq_of_lt hlt, hs.2]⟩
  rw [used?, if_neg fun hfree => not_mem_free hs (hf rfl hfree), hs']

/-! ## Steps and runs -/

/-- An operation leaves a document well-formed, and frees no slot twice. -/
structure Sane (d d' : Document) : Prop where
  wellFormed : d'.WellFormed
  worn : Worn 1 d d'

theorem Steady.sane (h : Steady d d') (hd : d.WellFormed) : Sane d d' :=
  ⟨h.wellFormed, h.tidy.freed.worn hd.toSound⟩

theorem Grows.sane (h : Grows d d') (hd : d.WellFormed) : Sane d d' :=
  ⟨h.wellFormed, (h.grown.worn hd.toSound).mono (Nat.zero_le _)⟩

/-- A legal operation leaves a well-formed document well-formed. -/
theorem Operation.Legal.sane (h : op.Legal d) (hd : d.WellFormed) : Sane d (op.apply d) := by
  obtain ⟨hissued, hplace⟩ := h
  cases op with
  | create data => exact (hd.create data).grows.sane hd
  | createFragment html =>
    obtain ⟨d0, h0, h1⟩ := hd.createFragment html
    exact (h0.grows.trans h1).sane hd
  | appendChild p c =>
    refine (hd.steady_appendChild (hissued p ?_).finds (hissued c ?_).finds fun hc =>
      hplace c p ?_).sane hd
    · exact List.mem_cons_self
    · exact List.mem_cons_of_mem _ List.mem_cons_self
    · simp [moves, hc]
  | insertAfter r c =>
    refine (hd.steady_insertAfter (hissued c ?_).finds fun p hp => hplace c p ?_).sane hd
    · exact List.mem_cons_of_mem _ List.mem_cons_self
    · simp [moves, hd.parent?_eq_some_iff.mpr hp]
  | detach c => exact (hd.steady_detach c).sane hd
  | remove c => exact (hd.steady_remove (hissued c List.mem_cons_self).finds).sane hd
  | removeChildren c => exact (hd.steady_removeChildren (hissued c List.mem_cons_self)).1.sane hd
  | setInnerHtml c html =>
    obtain ⟨d0, h0, h1, -⟩ := hd.setInnerHtml (hissued c List.mem_cons_self) html
    exact ⟨h1.wellFormed,
      (h0.tidy.freed.worn hd.toSound).trans (h1.grown.worn h0.wellFormed.toSound)⟩
  | setOwner c owner =>
    exact (hd.steady_update (f := fun s => { s with owner }) (hissued c List.mem_cons_self).finds
      (fun _ => rfl) (fun _ => rfl) fun _ => rfl).sane hd
  | updateData c f =>
    exact (hd.steady_update (f := fun s => { s with data := f s.data })
      (hissued c List.mem_cons_self).finds (fun _ => rfl) (fun _ => rfl) fun _ => rfl).sane hd
  | clearOwned m => exact (hd.clearOwned m).1.sane hd
  | insertOwned m f =>
    refine (hd.steady_insertOwned (hissued f ?_) fun p hp b hb => hplace b p ?_).1.sane hd
    · exact List.mem_cons_of_mem _ List.mem_cons_self
    · simp [moves, hb, hd.parent?_eq_some_iff.mpr hp]
  | appendFragment p f =>
    refine (hd.steady_appendFragment (hissued p ?_) (hissued f ?_) fun b hb =>
      hplace b p ?_).1.sane hd
    · exact List.mem_cons_self
    · exact List.mem_cons_of_mem _ List.mem_cons_self
    · simp [moves, hb]

theorem issued_iff :
    d.Issued x ↔ x.index < d.slots.size ∧ ¬ (d.contains x = true ∧ x.index ∈ d.free) := by
  constructor
  · rintro ⟨hlt, hfinds⟩
    refine ⟨hlt, fun ⟨hx, hfree⟩ => ?_⟩
    obtain ⟨s, hs⟩ := hfinds hx
    exact not_mem_free hs hfree
  · rintro ⟨hlt, hnot⟩
    exact ⟨hlt, fun hx => live_of_contains hx fun hfree => hnot ⟨hx, hfree⟩⟩

theorem isLegal_iff (hd : d.WellFormed) : op.isLegal d = true ↔ op.Legal d := by
  have hissued : (op.handles.all fun h => h.index < d.slots.size &&
      !(d.contains h && h.index ∈ d.free)) = true ↔ ∀ h ∈ op.handles, d.Issued h := by
    simp only [List.all_eq_true, issued_iff]
    refine forall₂_congr fun h _ => ?_
    cases d.contains h <;> simp
  have hplace : ((op.moves d).all fun (c, p) => c ≠ root && c ≠ p && !d.isDescendant c p) = true ↔
      ∀ c p, (c, p) ∈ op.moves d → d.Placeable c p := by
    simp only [hd.placeable_iff]
    simp [and_assoc]
  rw [isLegal, Bool.and_eq_true, hissued, hplace]
  exact ⟨fun h => ⟨h.1, h.2⟩, fun h => ⟨h.1, h.2⟩⟩

theorem areLegal_iff (hd : d.WellFormed) : areLegal d ops = true ↔ AllLegal d ops := by
  induction ops generalizing d with
  | nil => simp [areLegal, AllLegal]
  | cons op ops ih =>
    rw [areLegal, AllLegal, Bool.and_eq_true, isLegal_iff hd]
    exact and_congr_right fun h => ih (h.sane hd).wellFormed

theorem run_append (d : Document) (before after : List Operation) :
    run d (before ++ after) = run (run d before) after :=
  List.foldl_append

theorem allLegal_append {before after : List Operation} :
    AllLegal d (before ++ after) ↔ AllLegal d before ∧ AllLegal (run d before) after := by
  induction before generalizing d with
  | nil => simp [AllLegal, run]
  | cons op ops ih => simp [AllLegal, run, ih, and_assoc]

/-- Legal operations leave a well-formed document well-formed, and free no slot more often than there
are operations. -/
theorem Operation.AllLegal.sane (h : AllLegal d ops) (hd : d.WellFormed) :
    (run d ops).WellFormed ∧ Worn ops.length d (run d ops) := by
  induction ops generalizing d with
  | nil => exact ⟨hd, (Grown.refl d).worn hd.toSound⟩
  | cons op ops ih =>
    obtain ⟨h1, hworn⟩ := h.1.sane hd
    obtain ⟨h2, hworn'⟩ := ih h.2 h1
    refine ⟨h2, (hworn.trans hworn').mono ?_⟩
    rw [List.length_cons, Nat.add_comm]

/-- An empty document holds its root alone. -/
theorem holds_empty {x : NodeId} {s : Slot} (h : empty.Holds x s) :
    x = root ∧ s = { data := .root } := by
  have hused : ∀ i, empty.used? i = if i = 0 then some { data := .root } else none := by
    intro i
    cases i <;> rfl
  obtain ⟨i, g⟩ := x
  obtain ⟨h1, h2⟩ := h
  rw [hused] at h1
  split_ifs at h1 with hi
  obtain rfl := Option.some.inj h1
  obtain rfl : i = 0 := hi
  obtain rfl : 0 = g := h2
  exact ⟨rfl, rfl⟩

theorem wellFormed_empty : empty.WellFormed := by
  have hunder : ∀ x p, ¬ empty.Under x p := fun x p ⟨s, hs, hp⟩ => by
    rw [(holds_empty hs).2] at hp
    cases hp
  have hamong : ∀ x p, ¬ empty.Among x p := fun x p ⟨s, hs, hx⟩ => by
    rw [(holds_empty hs).2] at hx
    cases hx
  refine ⟨⟨⟨List.nodup_nil, fun i hi => (List.not_mem_nil hi).elim, fun i s hs => ?_⟩,
    fun i hi => (List.not_mem_nil hi).elim,
    fun hx => absurd hx (hamong _ _), fun {p s} hs => ?_, fun x hx => ?_⟩,
    fun hx => absurd hx (hunder _ _), ⟨{ data := .root }, ⟨rfl, rfl⟩, rfl⟩⟩
  · rw [(holds_empty (x := ⟨i, s.generation⟩) ⟨hs, rfl⟩).2]
    simp [generations]
  · rw [(holds_empty hs).2]
    exact List.nodup_nil
  · obtain ⟨y, hy, -⟩ := Relation.TransGen.head'_iff.mp hx
    exact hunder x y hy

theorem wellFormed_parse (html : List Char) : (parse html).WellFormed := by
  have hroot : empty.Live root := ⟨{ data := .root }, rfl, rfl⟩
  exact (wellFormed_empty.graftAll _ hroot.issued).wellFormed

/-- A parsed document stays well-formed whatever legal operations are applied to it: no slot is free
twice, nothing is left in free slots, lists of children and links to parents say the same, no node
stands below itself, and the root is on top.  A handle of a live node stays legal for the next
`generations` operations at least, also when the node is gone. -/
theorem wellFormed_run (html : List Char) (ops : List Operation) (h : AllLegal (parse html) ops) :
    (run (parse html) ops).WellFormed ∧
      ∀ before after x, ops = before ++ after → after.length < generations →
        (run (parse html) before).Live x → (run (parse html) ops).Issued x := by
  refine ⟨(h.sane (wellFormed_parse html)).1, ?_⟩
  rintro before after x rfl hlen hx
  obtain ⟨hbefore, hafter⟩ := allLegal_append.mp h
  have hd := (hbefore.sane (wellFormed_parse html)).1
  rw [run_append]
  exact (hafter.sane hd).2.issued hx hlen hd.toSound

/-- Content goes after a paragraph and is owned by it, a node of it moves into the paragraph, what is
owned is cleared, and the paragraph gets new content. -/
def exchange : List Operation :=
  [.createFragment "a<i></i>".toList, .insertOwned ⟨1, 0⟩ ⟨2, 0⟩, .appendChild ⟨1, 0⟩ ⟨4, 0⟩,
    .clearOwned ⟨1, 0⟩, .setInnerHtml ⟨1, 0⟩ "b".toList]

theorem wellFormed_run_exchange :
    AllLegal (parse "<p></p>".toList) exchange ∧
      (run (parse "<p></p>".toList) exchange).toHtml = "<p>b</p>".toList ∧
      (run (parse "<p></p>".toList) exchange).WellFormed := by
  have h : AllLegal (parse "<p></p>".toList) exchange :=
    (areLegal_iff (wellFormed_parse _)).mp (by decide +kernel)
  exact ⟨h, by decide +kernel, (wellFormed_run _ _ h).1⟩

end LiveMarkup.Document
