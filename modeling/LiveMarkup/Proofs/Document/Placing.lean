import LiveMarkup.Proofs.Document.Precedence

/-!
# What content put after a marker turns into

Nodes that go after a marker keep what they are and their order; they get the parent of the marker,
and the marker for their owner unless they are owned already.  Nothing else changes, but that the
nodes are missing where they came from (`WellFormed.rewrites_insertOwnedAfter`).  The fragment that
they came from is then given up (`WellFormed.pruned_releaseFragment`).
-/

namespace LiveMarkup.Document

open Relation

variable {d d' : Document} {x y c m p q F : NodeId} {cs L R K : List NodeId} {s : Slot}

/-! ## Owning -/

/-- A document in which a node without an owner got one. -/
def adopt (m : NodeId) (d : Document) (c : NodeId) : Document :=
  if (d.owner? c).isNone then d.setOwner c (some m) else d

/-- A slot with an owner, unless it has one. -/
def adopted (m : NodeId) (s : Slot) : Slot :=
  { s with owner := s.owner.or (some m) }

theorem insertOwnedAfter_cons (m : NodeId) (d : Document) (y c : NodeId) (cs : List NodeId) :
    insertOwnedAfter m d y (c :: cs) = insertOwnedAfter m ((adopt m d c).insertAfter y c).2 c cs := rfl

theorem rewrites_adopt (hc : d.Live c) (m : NodeId) :
    Rewrites (fun x s => if x = c then adopted m s else s) d (adopt m d c) := by
  obtain ⟨s, hs⟩ := id hc
  unfold adopt
  split
  · rename_i hnone
    refine (rewrites_update (f := fun s => { s with owner := some m }) (fun _ => rfl) hc).congr
      fun x t ht => ?_
    split_ifs with hx
    · subst hx
      rw [ht.owner?_eq, Option.isNone_iff_eq_none] at hnone
      simp [adopted, hnone]
    · rfl
  · rename_i hsome
    refine .of_eq_self fun x t ht => ?_
    split_ifs with hx
    · subst hx
      rw [ht.owner?_eq, Option.isNone_iff_eq_none] at hsome
      obtain ⟨u, hu⟩ := Option.ne_none_iff_exists'.mp hsome
      rw [adopted, hu, Option.some_or, ← hu]
    · rfl

/-- No link changes. -/
theorem WellFormed.adopt_spec (hd : d.WellFormed) (hc : d.Live c) (m : NodeId) :
    (adopt m d c).WellFormed ∧ (adopt m d c).Under = d.Under ∧
      ∀ q, (adopt m d c).children q = d.children q := by
  obtain ⟨hwell, hunder, hchildren, -⟩ := hd.own_spec hc m rfl
  exact ⟨hwell, hunder, hchildren⟩

/-! ## Going after a marker -/

/-- What a node holds after the nodes `cs` were put among the children of a node, which are `K` then,
with a marker for the owner of those without one. -/
def placed (m p : NodeId) (cs K : List NodeId) (x : NodeId) (s : Slot) : Slot :=
  { s with
    parent := if x ∈ cs then some p else s.parent
    owner := if x ∈ cs then s.owner.or (some m) else s.owner
    children := if x = p then K else s.children.filter (· ∉ cs) }

theorem placed_nil (hp : d.Holds p s) : ∀ x t, d.Holds x t → placed m p [] s.children x t = t := by
  intro x t ht
  simp only [placed, List.not_mem_nil, if_false, not_false_eq_true, decide_true, List.filter_true]
  split_ifs with hx
  · subst hx
    rw [ht.unique hp]
  · rfl

/-- One node is put there first, and then the others. -/
theorem placed_moved (hc : c ∉ cs) (x : NodeId) (s : Slot) :
    placed m p cs K x (moved c p L x (if x = c then adopted m s else s)) =
      placed m p (c :: cs) K x s := by
  have hfilter : (s.children.filter (· ≠ c)).filter (· ∉ cs) = s.children.filter (· ∉ c :: cs) := by
    rw [List.filter_filter]
    congr 1
    funext b
    simp [Bool.and_comm]
  have hchildren : (if x = p then K
      else (if x = p then L else s.children.filter (· ≠ c)).filter (· ∉ cs)) =
        if x = p then K else s.children.filter (· ∉ c :: cs) := by
    split_ifs
    · rfl
    · exact hfilter
  by_cases hx : x = c
  · subst hx
    rw [if_pos rfl]
    simp only [placed, moved, adopted, hchildren, if_neg hc, List.mem_cons_self, if_true]
  · rw [if_neg hx]
    simp only [placed, moved, hchildren, List.mem_cons, hx, if_false, false_or]

theorem WellFormed.rewrites_insertOwnedAfter : ∀ {cs : List NodeId} {d : Document} {y : NodeId}
    {L : List NodeId}, d.WellFormed → cs.Nodup → (∀ c ∈ cs, d.Under c F ∧ d.Placeable c p) → F ≠ p →
      y ∉ F :: cs → d.children p = L ++ y :: R →
        Rewrites (placed m p cs (L ++ y :: (cs ++ R))) d (Document.insertOwnedAfter m d y cs)
  | [], d, y, L, hd, _, _, _, _, hp => by
    have hy : d.Among y p := by
      rw [← hd.mem_children_iff, hp]
      exact List.mem_append_right L List.mem_cons_self
    obtain ⟨s, hs, -⟩ := hy
    rw [List.nil_append, ← hp, hs.children_eq]
    exact .of_eq_self (placed_nil hs)
  | c :: cs, d, y, L, hd, hnd, hcs, hFp, hy, hp => by
    rw [List.nodup_cons] at hnd
    obtain ⟨hc, hcp⟩ := hcs c List.mem_cons_self
    obtain ⟨hwell, hunder, hchildren⟩ := hd.adopt_spec hc.live m
    have hown := rewrites_adopt hc.live m
    rw [insertOwnedAfter_cons]
    generalize adopt m d c = d0 at hwell hunder hchildren hown
    have hplace : ∀ {c}, d.Placeable c p → d0.Placeable c p := fun h => by
      rwa [Placeable, hunder]
    rw [← hunder] at hc
    have hyp : d0.Under y p := by
      rw [← hwell.mem_children, hchildren, hp]
      exact List.mem_append_right L List.mem_cons_self
    have hmoved := hwell.insertAfter hc.live hyp (fun h => hy (by simp [h])) hcp.ne
    have hwell1 := (hmoved.moves hwell hc.live (hplace hcp)).steady.wellFormed
    have hp1 := hwell.children_insertAfter hc hyp hFp hcp.ne
      ((hchildren p).trans hp)
    have hrest := WellFormed.rewrites_insertOwnedAfter (L := L ++ [y]) hwell1 hnd.2
      (fun b hb => ?_) hFp (y := c) ?_ (by rw [hp1]; simp)
    · obtain ⟨-, A, B, -, -, hmoved⟩ := hmoved
      refine ((hown.trans hmoved).trans hrest).congr fun x s _ => ?_
      rw [placed_moved hnd.1]
      simp
    · obtain ⟨hb', hbp⟩ := hcs b (List.mem_cons_of_mem c hb)
      rw [← hunder] at hb'
      refine ⟨(hmoved.under_iff hc.live).mpr (.inr ⟨fun h => hnd.1 (h ▸ hb), hb'⟩), ?_⟩
      exact hmoved.placeable hc.live (hplace hcp) (hplace hbp)
    · rw [List.mem_cons, not_or]
      exact ⟨fun h => hwell.acyclic c (.single (h ▸ hc)), hnd.1⟩

/-! ## Giving up the fragment -/

/-- An empty fragment that is given up takes along no other node. -/
theorem WellFormed.pruned_releaseFragment (hd : d.WellFormed) (hF : d.Live F) (hroot : F ≠ root)
    (hdata : d.data F = .fragment) (hempty : d.children F = []) :
    Pruned {F} d (d.releaseFragment F) := by
  have hbelow : d.below [F] = {F} := by
    ext x
    constructor
    · rintro ⟨a, ha, hxa⟩
      obtain rfl := List.mem_singleton.mp ha
      rcases hxa.cases_tail with heq | ⟨y, -, hy⟩
      · exact heq.symm
      · rw [← hd.mem_children_iff, hempty] at hy
        cases hy
    · rintro rfl
      exact ⟨x, List.mem_singleton_self x, .refl⟩
  unfold Document.releaseFragment
  rw [if_pos (by simp [hdata, hempty]), ← hbelow]
  exact hd.remove hF hroot

end LiveMarkup.Document
