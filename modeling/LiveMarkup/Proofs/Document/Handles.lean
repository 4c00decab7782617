import LiveMarkup.Proofs.Document.Arena

/-!
# Handles

A run of operations gives out handles and frees nodes.  Which handles an operation gives out
(`Operation.created`) and which nodes it frees (`Operation.freed`) follows its own steps: a node is
created by `create` alone, and freed by `freeSlot` alone.

The generation of a slot is the number of times that it was freed, and a handle carries the number at
which it was given out (`Tracks`).  As long as no slot is freed `generations` times the numbers do not
wrap around, so no handle is given out twice, and none comes back to life (`nodup_handles_run`).
Nothing is asked of the operations but that they are applied to handles that were given out; a node
may be placed below itself, and the root be moved.
-/

namespace LiveMarkup.Document

open Relation

/-! ## What is given out and what is freed -/

mutual

/-- The handles that are given out when a tree is grafted onto a node. -/
def grafted (d : Document) (parent : NodeId) : Tree → List NodeId
  | .node data ts =>
    let (id, d) := d.create data
    id :: graftedAll (d.appendChild parent id) id ts

/-- The handles that are given out when trees are grafted onto a node, one after the other. -/
def graftedAll (d : Document) (parent : NodeId) : List Tree → List NodeId
  | [] => []
  | t :: ts => grafted d parent t ++ graftedAll (graft d parent t) parent ts

end

/-- The handles that a parsed document has given out. -/
def parsed (html : List Char) : List NodeId :=
  root :: empty.graftedAll root (Tree.parse html)

/-- The nodes that are freed when each of a list is freed that is still there. -/
def freedAmong (d : Document) : List NodeId → List NodeId
  | [] => []
  | x :: xs => (if d.contains x then [x] else []) ++ (d.freeSlot x).freedAmong xs

/-- The nodes that are freed with a node. -/
def freedByRelease (d : Document) (id : NodeId) : List NodeId :=
  d.freedAmong (d.backward d.capacity id)

/-- The nodes that are freed with several nodes. -/
def freedByReleases (d : Document) : List NodeId → List NodeId
  | [] => []
  | x :: xs => d.freedByRelease x ++ (d.release x).freedByReleases xs

/-- The nodes that are freed when a node is removed. -/
def freedByRemove (d : Document) (id : NodeId) : List NodeId :=
  if id = root || !d.contains id then [] else (d.detach id).freedByRelease id

/-- The nodes that are freed when the children of a node are removed. -/
def freedByRemoveChildren (d : Document) (id : NodeId) : List NodeId :=
  (d.update id fun s => { s with children := [] }).freedByReleases (d.children id)

/-- The nodes that are freed when siblings are walked in order and the owned ones removed. -/
def freedByClearing (d : Document) (owners : List NodeId) : List NodeId → List NodeId
  | [] => []
  | s :: siblings =>
    if (d.owner? s).any (· ∈ owners) then
      d.freedByRemove s ++ (d.remove s).freedByClearing (s :: owners) siblings
    else d.freedByClearing owners siblings

/-- The nodes that are freed when a fragment is released. -/
def freedByReleaseFragment (d : Document) (fragment : NodeId) : List NodeId :=
  if d.data fragment = .fragment && d.children fragment = [] then d.freedByRemove fragment else []

namespace Operation

/-- The handles that an operation gives out. -/
def created (d : Document) : Operation → List NodeId
  | create data => [(d.create data).1]
  | createFragment html =>
    let (id, d) := d.create .fragment
    id :: d.graftedAll id (Tree.parse html)
  | setInnerHtml c html => (d.removeChildren c).graftedAll c (Tree.parse html)
  | _ => []

/-- The nodes that an operation frees. -/
def freed (d : Document) : Operation → List NodeId
  | remove c => d.freedByRemove c
  | removeChildren c | setInnerHtml c _ => d.freedByRemoveChildren c
  | clearOwned m => d.freedByClearing [m] (d.followingSiblings m)
  | insertOwned m f => (insertOwnedAfter m d m (d.children f)).freedByReleaseFragment f
  | appendFragment p f =>
    ((d.children f).foldl (fun d c => d.appendChild p c) d).freedByReleaseFragment f
  | _ => []

/-- The handles that a run gives out. -/
def createdBy : Document → List Operation → List NodeId
  | _, [] => []
  | d, op :: ops => op.created d ++ createdBy (op.apply d) ops

/-- The nodes that a run frees. -/
def freedBy : Document → List Operation → List NodeId
  | _, [] => []
  | d, op :: ops => op.freed d ++ freedBy (op.apply d) ops

/-- Each operation is applied to handles that are given out before its turn comes. -/
def AllGivenOut : List NodeId → Document → List Operation → Prop
  | _, _, [] => True
  | made, d, op :: ops =>
    (∀ x ∈ op.handles, x ∈ made) ∧ AllGivenOut (made ++ op.created d) (op.apply d) ops

instance decidableAllGivenOut : ∀ (made : List NodeId) (d : Document) (ops : List Operation),
    Decidable (AllGivenOut made d ops)
  | _, _, [] => .isTrue trivial
  | made, d, op :: ops =>
    haveI := decidableAllGivenOut (made ++ op.created d) (op.apply d) ops
    inferInstanceAs (Decidable (_ ∧ _))

end Operation

/-- How often a slot is freed. -/
def timesFreed (gone : List NodeId) (i : Nat) : Nat :=
  gone.countP (·.index = i)

/-- No slot is freed so often that its generations come up again. -/
def InRange (gone : List NodeId) : Prop :=
  ∀ i, timesFreed gone i < generations

/-- The state of a document that has given out some handles and freed some of the nodes. -/
structure Tracks (made gone : List NodeId) (d : Document) : Prop where
  nodup : made.Nodup
  free : d.free.Nodup
  bounds : ∀ i ∈ d.free, i < d.slots.size
  generation : ∀ (i : Nat) (s : Slot), d.slots[i]? = some s → s.generation = timesFreed gone i
  stale : ∀ x ∈ gone, x.index < d.slots.size ∧ x.generation < timesFreed gone x.index
  fresh : ∀ x ∈ made, x ∉ gone →
    x.index < d.slots.size ∧ x.generation = timesFreed gone x.index ∧ x.index ∉ d.free
  children : ∀ (i : Nat) (s : Slot), d.slots[i]? = some s → ∀ x ∈ s.children, x ∈ made

variable {d : Document} {made gone more xs cs owners : List NodeId} {x c p m : NodeId} {i : Nat}
  {f : Slot → Slot} {op : Operation} {ops : List Operation}

open Operation

theorem timesFreed_append (a b : List NodeId) (i : Nat) :
    timesFreed (a ++ b) i = timesFreed a i + timesFreed b i :=
  List.countP_append

theorem InRange.of_append (h : InRange (gone ++ more)) : InRange gone := fun i => by
  have hi := h i
  rw [timesFreed_append] at hi
  omega

theorem slot?_eq_some_iff {s : Slot} :
    d.slot? x = some s ↔ d.slots[x.index]? = some s ∧ s.generation = x.generation := by
  rw [slot?, Option.filter_eq_some_iff]
  simp

theorem mem_children (h : x ∈ d.children p) : ∃ s, d.slots[p.index]? = some s ∧ x ∈ s.children := by
  rcases hs : d.slot? p with _ | s
  · simp [children, hs] at h
  · refine ⟨s, (slot?_eq_some_iff.mp hs).1, ?_⟩
    simpa [children, hs] using h

theorem contains_of_mem_children (h : x ∈ d.children p) : d.contains p = true := by
  rcases hs : d.slot? p with _ | s
  · simp [children, hs] at h
  · rw [contains, hs, Option.isSome_some]

/-- Two nodes that are there are told apart by their slots. -/
theorem index_ne (hx : d.contains x = true) (hc : d.contains c = true) (hne : x ≠ c) :
    x.index ≠ c.index := fun hindex => hne <| by
  obtain ⟨s, hs⟩ := Option.isSome_iff_exists.mp hx
  obtain ⟨t, ht⟩ := Option.isSome_iff_exists.mp hc
  rw [slot?_eq_some_iff] at hs ht
  rw [hindex, ht.1] at hs
  obtain rfl := Option.some.inj hs.1
  obtain ⟨xi, xg⟩ := x
  obtain ⟨ci, cg⟩ := c
  obtain rfl : xi = ci := hindex
  obtain rfl : xg = cg := hs.2.symm.trans ht.2
  rfl

/-! ## What lies below a node -/

theorem reaches_of_mem_backward : ∀ {n : Nat} {c : NodeId}, x ∈ d.backward n c →
    ReflTransGen (fun p y => y ∈ d.children p) c x
  | 0, c, h => by
    rw [backward, List.mem_singleton] at h
    exact h ▸ .refl
  | n + 1, c, h => by
    rw [backward, List.mem_cons, List.mem_flatMap] at h
    rcases h with rfl | ⟨y, hy, hx⟩
    · exact .refl
    · exact (reaches_of_mem_backward hx).head (List.mem_reverse.mp hy)

/-- What is reached from a node is reached without coming back to it. -/
theorem eq_or_exists_of_reaches {α : Type} {r : α → α → Prop} {a b : α} (h : ReflTransGen r a b) :
    b = a ∨ ∃ c, r a c ∧ c ≠ a ∧ ReflTransGen (fun x y => r x y ∧ y ≠ a) c b := by
  induction h with
  | refl => exact .inl rfl
  | @tail b c hab hbc ih =>
    by_cases hc : c = a
    · exact .inl hc
    · rcases ih with rfl | ⟨y, hy, hne, hyb⟩
      · exact .inr ⟨c, hbc, hc, .refl⟩
      · exact .inr ⟨y, hy, hne, hyb.tail ⟨hbc, hc⟩⟩

/-- The walk goes deep enough: of the slots not yet seen on the way there is one less at each step. -/
theorem mem_backward_of_unseen : ∀ {n : Nat} {c : NodeId} (seen : Finset Nat),
    (∀ i ∈ seen, i < d.slots.size) → d.slots.size ≤ n + seen.card → c.index ∉ seen →
      d.contains c = true →
      ReflTransGen (fun p y => y ∈ d.children p ∧ d.contains y = true ∧ y.index ∉ seen) c x →
        x ∈ d.backward n c
  | 0, c, seen, hseen, hcard, hc, hcontains, _ => by
    obtain ⟨s, hs⟩ := Option.isSome_iff_exists.mp hcontains
    have hlt : c.index < d.slots.size :=
      (Array.getElem?_eq_some_iff.mp (slot?_eq_some_iff.mp hs).1).1
    have hall : seen = Finset.range d.slots.size :=
      Finset.eq_of_subset_of_card_le (fun i hi => Finset.mem_range.mpr (hseen i hi))
        (by rw [Finset.card_range]; omega)
    exact absurd (hall ▸ Finset.mem_range.mpr hlt) hc
  | n + 1, c, seen, hseen, hcard, hc, hcontains, h => by
    rw [backward, List.mem_cons, List.mem_flatMap]
    rcases eq_or_exists_of_reaches h with rfl | ⟨y, ⟨hy, hycontains, hyseen⟩, hne, hyx⟩
    · exact .inl rfl
    · obtain ⟨s, hs⟩ := Option.isSome_iff_exists.mp hcontains
      have hlt : c.index < d.slots.size :=
        (Array.getElem?_eq_some_iff.mp (slot?_eq_some_iff.mp hs).1).1
      refine .inr ⟨y, List.mem_reverse.mpr hy,
        mem_backward_of_unseen (insert c.index seen) (fun i hi => ?_) ?_ ?_ hycontains
          (hyx.lift id ?_)⟩
      · rcases Finset.mem_insert.mp hi with rfl | hi
        exacts [hlt, hseen i hi]
      · rw [Finset.card_insert_of_notMem hc]
        omega
      · rw [Finset.mem_insert, not_or]
        exact ⟨index_ne hycontains hcontains hne, hyseen⟩
      · rintro a b ⟨⟨hab, hb, hbseen⟩, hbc⟩
        refine ⟨hab, hb, ?_⟩
        rw [Finset.mem_insert, not_or]
        exact ⟨index_ne hb hcontains hbc, hbseen⟩

theorem mem_backward_of_reaches (hx : d.contains x = true)
    (h : ReflTransGen (fun p y => y ∈ d.children p) c x) : x ∈ d.backward d.capacity c := by
  have hthere : d.contains c = true ∧
      ReflTransGen (fun p y => y ∈ d.children p ∧ d.contains y = true ∧ y.index ∉ (∅ : Finset Nat))
        c x := by
    induction h using ReflTransGen.head_induction_on with
    | refl => exact ⟨hx, .refl⟩
    | head hab _ ih =>
      exact ⟨contains_of_mem_children hab, ih.2.head ⟨hab, ih.1, Finset.notMem_empty _⟩⟩
  refine mem_backward_of_unseen ∅ (fun i hi => ?_) ?_ (Finset.notMem_empty _) hthere.1 hthere.2
  · exact absurd hi (Finset.notMem_empty i)
  · exact Nat.le_add_right _ _

theorem contains_update (hf : ∀ s, (f s).generation = s.generation) :
    (d.update c f).contains x = d.contains x := by
  rw [contains, contains, slot?_update hf, Option.isSome_map]

theorem children_setParent (parent : Option NodeId) :
    (d.update c fun s => { s with parent }).children x = d.children x := by
  have hslot := slot?_update (d := d) (c := c) (f := fun s => { s with parent }) (fun _ => rfl) x
  rw [children, children, hslot, Option.map_map]
  rcases d.slot? x with _ | s
  · rfl
  · simp only [Option.map_some, Option.getD_some, Function.comp_apply]
    split <;> rfl

theorem contains_detach : (d.detach c).contains x = d.contains x := by
  unfold detach
  split
  · rfl
  · rename_i q _
    rw [contains_update (c := q) (f := fun s => { s with children := s.children.filter (· ≠ c) })
      fun _ => rfl, contains_update (c := c) (f := fun s => { s with parent := none }) fun _ => rfl]

/-- A node that is detached is no child any more, and all other nodes keep their places. -/
theorem mem_children_detach {y : NodeId} (hy : y ≠ c) :
    y ∈ (d.detach c).children x ↔ y ∈ d.children x := by
  unfold detach
  split
  · rfl
  · rename_i q _
    have hslot := slot?_update (d := d.update c fun s => { s with parent := none }) (c := q)
      (f := fun s => { s with children := s.children.filter (· ≠ c) }) (fun _ => rfl) x
    rw [← children_setParent (d := d) (c := c) none (x := x), children, children, hslot,
      Option.map_map]
    rcases (d.update c fun s => { s with parent := none }).slot? x with _ | s
    · rfl
    · simp only [Option.map_some, Option.getD_some, Function.comp_apply]
      split
      · simp [hy]
      · rfl

/-- What lies below a node still does when it is detached. -/
theorem reaches_detach_iff : ReflTransGen (fun p y => y ∈ (d.detach c).children p) c x ↔
    ReflTransGen (fun p y => y ∈ d.children p) c x := by
  constructor <;> intro h <;> rcases eq_or_exists_of_reaches h with rfl | ⟨y, hy, hne, hyx⟩
  · exact .refl
  · refine .head ((mem_children_detach hne).mp hy) (hyx.lift id fun a b hab => ?_)
    exact (mem_children_detach hab.2).mp hab.1
  · exact .refl
  · refine .head ((mem_children_detach hne).mpr hy) (hyx.lift id fun a b hab => ?_)
    exact (mem_children_detach hab.2).mpr hab.1

theorem freedBy_append (d : Document) (before after : List Operation) :
    freedBy d (before ++ after) = freedBy d before ++ freedBy (run d before) after := by
  induction before generalizing d with
  | nil => rfl
  | cons op before ih => simp [freedBy, run, ih]

theorem allGivenOut_append {before after : List Operation} :
    AllGivenOut made d (before ++ after) ↔ AllGivenOut made d before ∧
      AllGivenOut (made ++ createdBy d before) (run d before) after := by
  induction before generalizing made d with
  | nil => simp [AllGivenOut, createdBy, run]
  | cons op before ih => simp [AllGivenOut, createdBy, run, ih, and_assoc]

namespace Tracks

theorem mem_of_children (h : Tracks made gone d) (hx : x ∈ d.children p) : x ∈ made := by
  obtain ⟨s, hs, hx⟩ := mem_children hx
  exact h.children _ s hs x hx

theorem index_lt (h : Tracks made gone d) (hx : x ∈ made) : x.index < d.slots.size := by
  by_cases hgone : x ∈ gone
  · exact (h.stale x hgone).1
  · exact (h.fresh x hx hgone).1

/-- A handle of a node that was freed refers to nothing. -/
theorem not_contains (h : Tracks made gone d) (hx : x ∈ gone) : d.contains x = false := by
  rcases hs : d.slot? x with _ | s
  · rw [contains, hs, Option.isSome_none]
  · obtain ⟨hs, hg⟩ := slot?_eq_some_iff.mp hs
    have hlt := (h.stale x hx).2
    rw [← h.generation _ s hs] at hlt
    omega

/-! ## The single operations -/

theorem update (h : Tracks made gone d) (hgen : ∀ s, (f s).generation = s.generation)
    (hchildren : ∀ s, ∀ y ∈ (f s).children, y ∈ s.children ∨ y ∈ made) :
    Tracks made gone (d.update c f) := by
  have hslots : ∀ (i : Nat) (t : Slot), (d.update c f).slots[i]? = some t →
      ∃ s, d.slots[i]? = some s ∧ (t = s ∨ t = f s) := by
    intro i t ht
    unfold Document.update at ht
    split at ht
    · rw [Array.getElem?_modify] at ht
      split at ht
      · obtain ⟨s, hs, rfl⟩ := Option.map_eq_some_iff.mp ht
        exact ⟨s, hs, .inr rfl⟩
      · exact ⟨t, ht, .inl rfl⟩
    · exact ⟨t, ht, .inl rfl⟩
  refine ⟨h.nodup, ?_, ?_, fun i t ht => ?_, ?_, ?_, fun i t ht => ?_⟩
  · rw [free_update]
    exact h.free
  · rw [free_update, size_update]
    exact h.bounds
  · obtain ⟨s, hs, rfl | rfl⟩ := hslots i t ht
    · exact h.generation i t hs
    · exact (hgen s).trans (h.generation i s hs)
  · rw [size_update]
    exact h.stale
  · rw [size_update, free_update]
    exact h.fresh
  · obtain ⟨s, hs, rfl | rfl⟩ := hslots i t ht
    · exact h.children i t hs
    · exact fun y hy => (hchildren s y hy).elim (h.children i s hs y) id

/-- A node that is created gets a handle that was not given out before. -/
theorem create (h : Tracks made gone d) (data : NodeData) :
    Tracks (made ++ [(d.create data).1]) gone (d.create data).2 := by
  rcases hfree : d.free with _ | ⟨i, free⟩
  · have heq : d.create data = (⟨d.slots.size, 0⟩, ⟨d.slots.push { data }, []⟩) := by
      rw [Document.create, hfree]
    have hzero : timesFreed gone d.slots.size = 0 := by
      refine List.countP_eq_zero.mpr fun x hx => ?_
      have hlt := (h.stale x hx).1
      simp only [decide_eq_true_eq]
      omega
    rw [heq]
    refine ⟨?_, List.nodup_nil, fun i hi => (List.not_mem_nil hi).elim, fun i s hs => ?_,
      fun x hx => ?_, fun x hx hgone => ?_, fun i s hs => ?_⟩
    · refine List.nodup_append.mpr ⟨h.nodup, List.nodup_singleton _, ?_⟩
      rintro x hx y hy rfl
      obtain rfl := List.mem_singleton.mp hy
      exact absurd (h.index_lt hx) (lt_irrefl _)
    · rw [Array.getElem?_push] at hs
      split at hs
      · rename_i hi
        obtain rfl := Option.some.inj hs
        rw [hi, hzero]
      · exact h.generation i s hs
    · rw [Array.size_push]
      exact ⟨Nat.lt_succ_of_lt (h.stale x hx).1, (h.stale x hx).2⟩
    · rw [Array.size_push]
      rcases List.mem_append.mp hx with hx | hx
      · obtain ⟨h1, h2, -⟩ := h.fresh x hx hgone
        exact ⟨Nat.lt_succ_of_lt h1, h2, List.not_mem_nil⟩
      · obtain rfl := List.mem_singleton.mp hx
        exact ⟨Nat.lt_succ_self _, hzero.symm, List.not_mem_nil⟩
    · rw [Array.getElem?_push] at hs
      split at hs
      · obtain rfl := Option.some.inj hs
        exact fun y hy => (List.not_mem_nil hy).elim
      · exact fun y hy => List.mem_append_left _ (h.children i s hs y hy)
  · have hi : i < d.slots.size := h.bounds i (hfree ▸ List.mem_cons_self)
    obtain ⟨s, hs⟩ : ∃ s, d.slots[i]? = some s := ⟨_, Array.getElem?_eq_getElem hi⟩
    have hnodup : (i :: free).Nodup := hfree ▸ h.free
    have heq : d.create data =
        (⟨i, s.generation⟩, ⟨d.slots.setIfInBounds i { data, generation := s.generation }, free⟩) := by
      simp only [Document.create, hfree, hs, Option.map_some, Option.getD_some]
    have hcount := h.generation i s hs
    -- The handle would be that of a freed node, whose slot has come further, or that of a live one.
    have hnew : (⟨i, s.generation⟩ : NodeId) ∉ made := fun hmade => by
      by_cases hgone : (⟨i, s.generation⟩ : NodeId) ∈ gone
      · have hlt : s.generation < timesFreed gone i := (h.stale _ hgone).2
        omega
      · exact (h.fresh _ hmade hgone).2.2 (hfree ▸ List.mem_cons_self)
    have hslots : ∀ (j : Nat) (t : Slot),
        (d.slots.setIfInBounds i { data, generation := s.generation })[j]? = some t →
        j = i ∧ t = { data, generation := s.generation } ∨ d.slots[j]? = some t := by
      intro j t ht
      rw [Array.getElem?_setIfInBounds] at ht
      split at ht
      · rename_i hij
        exact .inl ⟨hij.symm, (Option.some.inj (by simpa [hi] using ht)).symm⟩
      · exact .inr ht
    rw [heq]
    refine ⟨?_, (List.nodup_cons.mp hnodup).2, fun j hj => ?_, fun j t ht => ?_, fun x hx => ?_,
      fun x hx hgone => ?_, fun j t ht => ?_⟩
    · refine List.nodup_append.mpr ⟨h.nodup, List.nodup_singleton _, ?_⟩
      rintro x hx y hy rfl
      obtain rfl := List.mem_singleton.mp hy
      exact hnew hx
    · rw [Array.size_setIfInBounds]
      exact h.bounds j (hfree ▸ List.mem_cons_of_mem _ hj)
    · rcases hslots j t ht with ⟨rfl, rfl⟩ | ht
      exacts [hcount, h.generation j t ht]
    · rw [Array.size_setIfInBounds]
      exact h.stale x hx
    · rw [Array.size_setIfInBounds]
      rcases List.mem_append.mp hx with hx | hx
      · obtain ⟨h1, h2, h3⟩ := h.fresh x hx hgone
        exact ⟨h1, h2, fun hmem => h3 (hfree ▸ List.mem_cons_of_mem _ hmem)⟩
      · obtain rfl := List.mem_singleton.mp hx
        exact ⟨hi, hcount, (List.nodup_cons.mp hnodup).1⟩
    · rcases hslots j t ht with ⟨-, rfl⟩ | ht
      · exact fun y hy => (List.not_mem_nil hy).elim
      · exact fun y hy => List.mem_append_left _ (h.children j t ht y hy)

theorem freeSlot (h : Tracks made gone d) (hx : x ∈ made) (hcontains : d.contains x = true)
    (hrange : InRange (gone ++ [x])) : Tracks made (gone ++ [x]) (d.freeSlot x) := by
  have hgone : x ∉ gone := fun hmem => by
    rw [h.not_contains hmem] at hcontains
    cases hcontains
  obtain ⟨hlt, hgen, hfree⟩ := h.fresh x hx hgone
  have hself : timesFreed [x] x.index = 1 := by simp [timesFreed]
  have hother : ∀ i, i ≠ x.index → timesFreed [x] i = 0 := fun i hi => by
    simp [timesFreed, Ne.symm hi]
  have heq : d.freeSlot x = ⟨d.slots.modify x.index fun s =>
      { data := .fragment, generation := (s.generation + 1) % generations }, x.index :: d.free⟩ := by
    rw [Document.freeSlot, if_pos hcontains]
  rw [heq]
  refine ⟨h.nodup, List.nodup_cons.mpr ⟨hfree, h.free⟩, fun i hi => ?_, fun i s hs => ?_,
    fun y hy => ?_, fun y hy hnot => ?_, fun i s hs => ?_⟩
  · rw [Array.size_modify]
    rcases List.mem_cons.mp hi with rfl | hi
    exacts [hlt, h.bounds i hi]
  · rw [timesFreed_append]
    rw [Array.getElem?_modify] at hs
    split at hs
    · rename_i hxi
      subst hxi
      obtain ⟨t, ht, rfl⟩ := Option.map_eq_some_iff.mp hs
      have hbound := hrange x.index
      rw [timesFreed_append, hself] at hbound
      rw [hself, ← h.generation _ t ht]
      exact Nat.mod_eq_of_lt (by rw [h.generation _ t ht]; exact hbound)
    · rename_i hxi
      rw [hother i (Ne.symm hxi), Nat.add_zero]
      exact h.generation i s hs
  · rw [Array.size_modify, timesFreed_append]
    rcases List.mem_append.mp hy with hy | hy
    · obtain ⟨h1, h2⟩ := h.stale y hy
      exact ⟨h1, by omega⟩
    · obtain rfl := List.mem_singleton.mp hy
      exact ⟨hlt, by omega⟩
  · rw [Array.size_modify, timesFreed_append]
    rw [List.mem_append, List.mem_singleton, not_or] at hnot
    obtain ⟨h1, h2, h3⟩ := h.fresh y hy hnot.1
    have hne : y.index ≠ x.index := fun hi => hnot.2 (by
      obtain ⟨yi, yg⟩ := y
      obtain ⟨xi, xg⟩ := x
      simp only at hi h2 hgen
      subst hi
      rw [h2, ← hgen])
    rw [hother _ hne, Nat.add_zero]
    exact ⟨h1, h2, List.not_mem_cons_of_ne_of_not_mem hne h3⟩
  · rw [Array.getElem?_modify] at hs
    split at hs
    · obtain ⟨t, -, rfl⟩ := Option.map_eq_some_iff.mp hs
      exact fun y hy => (List.not_mem_nil hy).elim
    · exact h.children i s hs

/-! ## Moving -/

theorem setParent (h : Tracks made gone d) (c : NodeId) (parent : Option NodeId) :
    Tracks made gone (d.update c fun s => { s with parent }) :=
  h.update (fun _ => rfl) fun _ _ hy => .inl hy

theorem detach (h : Tracks made gone d) (c : NodeId) : Tracks made gone (d.detach c) := by
  unfold Document.detach
  split
  · exact h
  · refine (h.setParent c none).update (fun _ => rfl) fun s y hy => ?_
    exact .inl (List.mem_of_mem_filter hy)

theorem appendChild (h : Tracks made gone d) (hc : c ∈ made) (p : NodeId) :
    Tracks made gone (d.appendChild p c) := by
  unfold Document.appendChild
  split
  · refine ((h.detach c).setParent c (some p)).update (fun _ => rfl) fun s y hy => ?_
    rcases List.mem_append.mp hy with hy | hy
    · exact .inl hy
    · exact .inr (List.mem_singleton.mp hy ▸ hc)
  · exact h

theorem insertAfter (h : Tracks made gone d) (hc : c ∈ made) (r : NodeId) :
    Tracks made gone (d.insertAfter r c).2 := by
  unfold Document.insertAfter
  split
  · exact h
  · split
    · exact h
    · rename_i p _
      refine ((h.detach c).setParent c (some p)).update (fun _ => rfl) fun s y hy => ?_
      rcases List.eq_or_mem_of_mem_insertIdx hy with rfl | hy
      · exact .inr hc
      · exact .inl hy

/-! ## Removing -/

theorem mem_of_mem_backward (h : Tracks made gone d) :
    ∀ {n : Nat} {c : NodeId}, c ∈ made → ∀ x ∈ d.backward n c, x ∈ made
  | 0, c, hc, x, hx => by
    rw [backward, List.mem_singleton] at hx
    exact hx ▸ hc
  | n + 1, c, hc, x, hx => by
    rw [backward, List.mem_cons, List.mem_flatMap] at hx
    rcases hx with rfl | ⟨y, hy, hx⟩
    · exact hc
    · exact h.mem_of_mem_backward (h.mem_of_children (List.mem_reverse.mp hy)) x hx

theorem freeAll : ∀ {xs : List NodeId} {gone : List NodeId} {d : Document}, Tracks made gone d →
    (∀ x ∈ xs, x ∈ made) → InRange (gone ++ d.freedAmong xs) →
      Tracks made (gone ++ d.freedAmong xs) (xs.foldl Document.freeSlot d)
  | [], gone, d, h, _, _ => by simpa [freedAmong] using h
  | x :: xs, gone, d, h, hxs, hrange => by
    obtain ⟨hx, hxs⟩ := List.forall_mem_cons.mp hxs
    rw [freedAmong, ← List.append_assoc] at hrange ⊢
    rw [List.foldl_cons]
    refine freeAll ?_ hxs hrange
    by_cases hcontains : d.contains x = true
    · rw [if_pos hcontains] at hrange ⊢
      exact h.freeSlot hx hcontains hrange.of_append
    · rw [if_neg hcontains, List.append_nil, Document.freeSlot, if_neg hcontains]
      exact h

theorem release (h : Tracks made gone d) (hc : c ∈ made)
    (hrange : InRange (gone ++ d.freedByRelease c)) :
    Tracks made (gone ++ d.freedByRelease c) (d.release c) :=
  h.freeAll (h.mem_of_mem_backward hc) hrange

theorem releaseAll : ∀ {cs : List NodeId} {gone : List NodeId} {d : Document}, Tracks made gone d →
    (∀ c ∈ cs, c ∈ made) → InRange (gone ++ d.freedByReleases cs) →
      Tracks made (gone ++ d.freedByReleases cs) (cs.foldl Document.release d)
  | [], gone, d, h, _, _ => by simpa [freedByReleases] using h
  | c :: cs, gone, d, h, hcs, hrange => by
    obtain ⟨hc, hcs⟩ := List.forall_mem_cons.mp hcs
    rw [freedByReleases, ← List.append_assoc] at hrange ⊢
    exact releaseAll (h.release hc hrange.of_append) hcs hrange

theorem remove (h : Tracks made gone d) (hc : c ∈ made)
    (hrange : InRange (gone ++ d.freedByRemove c)) :
    Tracks made (gone ++ d.freedByRemove c) (d.remove c) := by
  unfold Document.remove freedByRemove at *
  split at hrange
  · rename_i hstays
    rw [if_pos hstays, if_pos hstays, List.append_nil]
    exact h
  · rename_i hgoes
    rw [if_neg hgoes, if_neg hgoes]
    exact (h.detach c).release hc hrange

theorem removeChildren (h : Tracks made gone d)
    (hrange : InRange (gone ++ d.freedByRemoveChildren c)) :
    Tracks made (gone ++ d.freedByRemoveChildren c) (d.removeChildren c) := by
  have hcut : Tracks made gone (d.update c fun s => { s with children := [] }) :=
    h.update (fun _ => rfl) fun s y hy => (List.not_mem_nil hy).elim
  exact hcut.releaseAll (fun y hy => h.mem_of_children hy) hrange

theorem clearAmong : ∀ {cs owners gone : List NodeId} {d : Document}, Tracks made gone d →
    (∀ c ∈ cs, c ∈ made) → InRange (gone ++ d.freedByClearing owners cs) →
      Tracks made (gone ++ d.freedByClearing owners cs) (d.clearAmong owners cs).2
  | [], owners, gone, d, h, _, _ => by simpa [freedByClearing, Document.clearAmong] using h
  | c :: cs, owners, gone, d, h, hcs, hrange => by
    obtain ⟨hc, hcs⟩ := List.forall_mem_cons.mp hcs
    rw [freedByClearing] at hrange ⊢
    rw [Document.clearAmong]
    split at hrange
    · rename_i howned
      rw [if_pos howned, if_pos howned, ← List.append_assoc]
      rw [← List.append_assoc] at hrange
      exact clearAmong (h.remove hc hrange.of_append) hcs hrange
    · rename_i howned
      rw [if_neg howned, if_neg howned]
      exact clearAmong h hcs hrange

theorem mem_of_mem_followingSiblings (h : Tracks made gone d) (hx : x ∈ d.followingSiblings c) :
    x ∈ made := by
  unfold followingSiblings at hx
  split at hx
  · exact h.mem_of_children (List.mem_of_mem_drop hx)
  · cases hx

theorem releaseFragment (h : Tracks made gone d) (hc : c ∈ made)
    (hrange : InRange (gone ++ d.freedByReleaseFragment c)) :
    Tracks made (gone ++ d.freedByReleaseFragment c) (d.releaseFragment c) := by
  unfold Document.releaseFragment freedByReleaseFragment at *
  split at hrange
  · rename_i hempty
    rw [if_pos hempty, if_pos hempty]
    exact h.remove hc hrange
  · rename_i hempty
    rw [if_neg hempty, if_neg hempty, List.append_nil]
    exact h

/-! ## Content -/

theorem graftAll : ∀ (ts : List Tree) {made : List NodeId} {d : Document} {p : NodeId},
    Tracks made gone d → Tracks (made ++ d.graftedAll p ts) gone (d.graftAll p ts)
  | [], made, d, p, h => by simpa [graftedAll, Document.graftAll] using h
  | .node data ts :: rest, made, d, p, h => by
    have hnode : Tracks (made ++ d.grafted p (.node data ts)) gone (d.graft p (.node data ts)) := by
      have hnew := (h.create data).appendChild (List.mem_append_right _ (List.mem_singleton_self _)) p
      have hcontent := graftAll ts (p := (d.create data).1) hnew
      rwa [List.append_assoc, List.singleton_append] at hcontent
    rw [graftedAll, Document.graftAll, ← List.append_assoc]
    exact graftAll rest hnode

theorem insertOwnedAfter : ∀ {cs : List NodeId} {d : Document} {y : NodeId}, Tracks made gone d →
    (∀ c ∈ cs, c ∈ made) → Tracks made gone (Document.insertOwnedAfter m d y cs)
  | [], d, y, h, _ => h
  | c :: cs, d, y, h, hcs => by
    obtain ⟨hc, hcs⟩ := List.forall_mem_cons.mp hcs
    have howned : Tracks made gone (if (d.owner? c).isNone then d.setOwner c (some m) else d) := by
      split
      · exact h.update (fun _ => rfl) fun s y hy => .inl hy
      · exact h
    rw [Document.insertOwnedAfter]
    exact insertOwnedAfter (howned.insertAfter hc y) hcs

theorem appendAll : ∀ {cs : List NodeId} {d : Document}, Tracks made gone d →
    (∀ c ∈ cs, c ∈ made) → Tracks made gone (cs.foldl (fun d c => d.appendChild p c) d)
  | [], d, h, _ => h
  | c :: cs, d, h, hcs => by
    obtain ⟨hc, hcs⟩ := List.forall_mem_cons.mp hcs
    rw [List.foldl_cons]
    exact appendAll (h.appendChild hc p) hcs

theorem contains_iff (h : Tracks made gone d) (hx : x ∈ made) : d.contains x = true ↔ x ∉ gone := by
  constructor
  · intro hcontains hgone
    rw [h.not_contains hgone] at hcontains
    cases hcontains
  · intro hgone
    obtain ⟨hlt, hgen, -⟩ := h.fresh x hx hgone
    have hs := Array.getElem?_eq_getElem hlt
    rw [contains, slot?_eq_some_iff.mpr ⟨hs, (h.generation _ _ hs).trans hgen.symm⟩,
      Option.isSome_some]

theorem mem_freedAmong_iff : ∀ {xs gone : List NodeId} {d : Document}, Tracks made gone d →
    (∀ x ∈ xs, x ∈ made) → InRange (gone ++ d.freedAmong xs) →
      (x ∈ d.freedAmong xs ↔ x ∈ xs ∧ x ∉ gone)
  | [], gone, d, _, _, _ => by simp [freedAmong]
  | y :: xs, gone, d, h, hxs, hrange => by
    obtain ⟨hy, hxs⟩ := List.forall_mem_cons.mp hxs
    rw [freedAmong, ← List.append_assoc] at hrange
    rw [freedAmong]
    by_cases hcontains : d.contains y = true
    · rw [if_pos hcontains] at hrange ⊢
      have hgone := (h.contains_iff hy).mp hcontains
      have ih := mem_freedAmong_iff (h.freeSlot hy hcontains hrange.of_append) hxs hrange
      rw [List.mem_append, ih]
      simp only [List.mem_append, List.mem_cons]
      by_cases hxy : x = y
      · simp [hxy, hgone]
      · simp [hxy]
    · rw [if_neg hcontains, List.append_nil] at hrange
      rw [if_neg hcontains, List.nil_append]
      have hfree : d.freeSlot y = d := by rw [Document.freeSlot, if_neg hcontains]
      have hgone : y ∈ gone := by
        by_contra hgone
        exact hcontains ((h.contains_iff hy).mpr hgone)
      rw [hfree] at hrange ⊢
      rw [mem_freedAmong_iff h hxs hrange, List.mem_cons]
      by_cases hxy : x = y
      · simp [hxy, hgone]
      · simp [hxy]

/-- With a node all nodes below it are freed that are there, and no others. -/
theorem mem_freedByRelease_iff (h : Tracks made gone d) (hc : c ∈ made)
    (hrange : InRange (gone ++ d.freedByRelease c)) :
    x ∈ d.freedByRelease c ↔
      d.contains x = true ∧ ReflTransGen (fun p y => y ∈ d.children p) c x := by
  have hmem := h.mem_of_mem_backward (n := d.capacity) hc
  rw [freedByRelease, h.mem_freedAmong_iff hmem hrange]
  constructor
  · rintro ⟨hx, hgone⟩
    exact ⟨(h.contains_iff (hmem x hx)).mpr hgone, reaches_of_mem_backward hx⟩
  · rintro ⟨hcontains, hreach⟩
    have hx := mem_backward_of_reaches hcontains hreach
    exact ⟨hx, (h.contains_iff (hmem x hx)).mp hcontains⟩

/-- With a node that is removed all nodes below it are freed, and no others. -/
theorem mem_freedByRemove_iff (h : Tracks made gone d) (hc : c ∈ made)
    (hrange : InRange (gone ++ d.freedByRemove c)) :
    x ∈ d.freedByRemove c ↔
      c ≠ root ∧ d.contains x = true ∧ ReflTransGen (fun p y => y ∈ d.children p) c x := by
  unfold freedByRemove at *
  split at hrange
  · rename_i hstays
    rw [if_pos hstays]
    refine ⟨fun hx => (List.not_mem_nil hx).elim, fun ⟨hroot, hx, hreach⟩ => ?_⟩
    have hcontains : d.contains c = true := by
      rcases hreach.cases_head with rfl | ⟨y, hy, -⟩
      exacts [hx, contains_of_mem_children hy]
    simp [hroot, hcontains] at hstays
  · rename_i hgoes
    rw [if_neg hgoes, (h.detach c).mem_freedByRelease_iff hc hrange, contains_detach,
      reaches_detach_iff]
    have hroot : c ≠ root := fun heq => hgoes (by simp [heq])
    exact ⟨fun hx => ⟨hroot, hx⟩, fun hx => hx.2⟩

/-! ## Runs -/

theorem apply (h : Tracks made gone d) (hop : ∀ x ∈ op.handles, x ∈ made)
    (hrange : InRange (gone ++ op.freed d)) :
    Tracks (made ++ op.created d) (gone ++ op.freed d) (op.apply d) := by
  cases op <;> simp only [created, freed, List.append_nil] at hrange ⊢
  case create data => exact h.create data
  case createFragment html =>
    have hcontent := (h.create .fragment).graftAll (p := (d.create .fragment).1) (Tree.parse html)
    rwa [List.append_assoc, List.singleton_append] at hcontent
  case appendChild p c => exact h.appendChild (hop c (by simp [handles])) p
  case insertAfter r c => exact h.insertAfter (hop c (by simp [handles])) r
  case detach c => exact h.detach c
  case remove c => exact h.remove (hop c (by simp [handles])) hrange
  case removeChildren c => exact h.removeChildren hrange
  case setInnerHtml c html => exact (h.removeChildren hrange).graftAll (Tree.parse html)
  case setOwner c owner => exact h.update (fun _ => rfl) fun s y hy => .inl hy
  case updateData c f => exact h.update (fun _ => rfl) fun s y hy => .inl hy
  case clearOwned m => exact h.clearAmong (fun c => h.mem_of_mem_followingSiblings) hrange
  case insertOwned m f =>
    have hmoved := h.insertOwnedAfter (m := m) (y := m) fun c => h.mem_of_children (p := f)
    exact hmoved.releaseFragment (hop f (by simp [handles])) hrange
  case appendFragment p f =>
    have hmoved := h.appendAll (p := p) fun c => h.mem_of_children (p := f)
    exact hmoved.releaseFragment (hop f (by simp [handles])) hrange

theorem run : ∀ {ops : List Operation} {made gone : List NodeId} {d : Document},
    Tracks made gone d → AllGivenOut made d ops → InRange (gone ++ freedBy d ops) →
      Tracks (made ++ createdBy d ops) (gone ++ freedBy d ops) (Operation.run d ops)
  | [], made, gone, d, h, _, _ => by simpa [createdBy, freedBy, Operation.run] using h
  | op :: ops, made, gone, d, h, hgiven, hrange => by
    rw [freedBy, ← List.append_assoc] at hrange
    rw [createdBy, freedBy, ← List.append_assoc, ← List.append_assoc]
    exact run (h.apply hgiven.1 hrange.of_append) hgiven.2 hrange

end Tracks

theorem tracks_parse (html : List Char) : Tracks (parsed html) [] (parse html) := by
  have hempty : Tracks [root] [] empty := by
    have hslots : ∀ (i : Nat) (s : Slot), empty.slots[i]? = some s → s = { data := .root } := by
      intro i s hs
      cases i with
      | zero => exact (Option.some.inj hs).symm
      | succ i => cases hs
    refine ⟨List.nodup_singleton _, List.nodup_nil, fun i hi => (List.not_mem_nil hi).elim,
      fun i s hs => ?_, fun x hx => (List.not_mem_nil hx).elim, fun x hx _ => ?_, fun i s hs => ?_⟩
    · rw [hslots i s hs]
      rfl
    · obtain rfl := List.mem_singleton.mp hx
      exact ⟨Nat.zero_lt_one, rfl, List.not_mem_nil⟩
    · rw [hslots i s hs]
      exact fun y hy => (List.not_mem_nil hy).elim
  exact hempty.graftAll (p := root) (Tree.parse html)

/-- The handles that were given out are pairwise distinct, and a node that was freed is not there in
any later state, whatever nodes come into its slot.  To remove a node frees all nodes below it. -/
theorem nodup_handles_run (html : List Char) (ops : List Operation)
    (hgiven : AllGivenOut (parsed html) (parse html) ops)
    (hrange : ∀ i, timesFreed (freedBy (parse html) ops) i < generations) :
    (parsed html ++ createdBy (parse html) ops).Nodup ∧
      (∀ before after rest x, ops = before ++ after ++ rest → x ∈ freedBy (parse html) before →
        (run (parse html) (before ++ after)).contains x = false) ∧
      ∀ before rest c x, ops = before ++ .remove c :: rest → c ≠ root →
        (run (parse html) before).contains x = true →
        ReflTransGen (fun p y => y ∈ (run (parse html) before).children p) c x →
          x ∈ freedBy (parse html) (before ++ [.remove c]) := by
  have htracks := tracks_parse html
  refine ⟨(htracks.run hgiven hrange).nodup, ?_, ?_⟩
  · rintro before after rest x rfl hx
    rw [allGivenOut_append] at hgiven
    rw [freedBy_append] at hrange
    refine (htracks.run hgiven.1 (InRange.of_append hrange)).not_contains ?_
    rw [List.nil_append, freedBy_append]
    exact List.mem_append_left _ hx
  · rintro before rest c x rfl hroot hx hreach
    rw [allGivenOut_append] at hgiven
    rw [freedBy_append, freedBy, ← List.append_assoc] at hrange
    have hbefore := htracks.run hgiven.1 (InRange.of_append (InRange.of_append hrange))
    rw [freedBy_append]
    refine List.mem_append_right _ (List.mem_append_left _ ?_)
    exact (hbefore.mem_freedByRemove_iff (hgiven.2.1 c (by simp [handles]))
      (InRange.of_append hrange)).mpr ⟨hroot, hx, hreach⟩

/-- An element is removed and its slot used for a text, which then gets content and loses it. -/
def recycling : List Operation :=
  [.remove ⟨2, 0⟩, .create (.text "y"), .appendChild ⟨1, 0⟩ ⟨2, 1⟩,
    .createFragment "a<i></i>".toList, .insertOwned ⟨2, 1⟩ ⟨3, 0⟩, .clearOwned ⟨2, 1⟩,
    .setInnerHtml ⟨1, 0⟩ "b<u></u>".toList]

theorem nodup_handles_run_recycling :
    AllGivenOut (parsed "<p><hr></p>".toList) (parse "<p><hr></p>".toList) recycling ∧
      (∀ i, timesFreed (freedBy (parse "<p><hr></p>".toList) recycling) i < generations) ∧
      (parsed "<p><hr></p>".toList ++ createdBy (parse "<p><hr></p>".toList) recycling).Nodup ∧
      (run (parse "<p><hr></p>".toList) recycling).contains ⟨2, 0⟩ = false ∧
      (run (parse "<p><hr></p>".toList) recycling).contains ⟨2, 1⟩ = false ∧
      (run (parse "<p><hr></p>".toList) recycling).contains ⟨2, 2⟩ = true := by
  have hgiven : AllGivenOut (parsed "<p><hr></p>".toList) (parse "<p><hr></p>".toList) recycling := by
    decide +kernel
  have hfreed : freedBy (parse "<p><hr></p>".toList) recycling =
      [⟨2, 0⟩, ⟨3, 0⟩, ⟨4, 0⟩, ⟨5, 0⟩, ⟨2, 1⟩] := by
    decide +kernel
  have hrange : ∀ i, timesFreed (freedBy (parse "<p><hr></p>".toList) recycling) i < generations := by
    intro i
    rw [hfreed]
    exact List.countP_le_length.trans_lt (by decide)
  obtain ⟨hnodup, hgone, -⟩ := nodup_handles_run _ _ hgiven hrange
  have hstale : ∀ x ∈ [(⟨2, 0⟩ : NodeId), ⟨2, 1⟩],
      (run (parse "<p><hr></p>".toList) recycling).contains x = false := fun x hx => by
    have h := hgone recycling [] [] x (by simp) (hfreed ▸ by revert x; decide)
    rwa [List.append_nil] at h
  exact ⟨hgiven, hrange, hnodup, hstale _ (by simp), hstale _ (by simp), by decide +kernel⟩

end LiveMarkup.Document
