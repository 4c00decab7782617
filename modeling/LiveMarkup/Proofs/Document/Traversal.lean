import LiveMarkup.Proofs.Document.Precedence

/-!
# Walks downward and upward

The walk downward from a node lists what stands below it in document order: a child, all that stands
below that child, and then the next child (`WellFormed.documentOrder_descendants`).  A walk that
keeps the nodes still to be visited on a stack comes to an end with the same list
(`DocumentOrder.visits`), and the walk upward from a node comes to an end at a node without a parent
(`WellFormed.climbs_ancestors`).

Whatever legal operations a parsed document went through, both walks find the same nodes
(`walksAgree_run`).
-/

namespace LiveMarkup.Document

open Relation Operation

variable {d : Document} {a c n p x : NodeId} {cs l out stack rest : List NodeId} {fuel : Nat}

/-! ## The walks -/

/-- Nodes and what stands below them in document order: each node, then all that stands below it,
then the nodes after it. -/
inductive DocumentOrder (d : Document) : List NodeId → List NodeId → Prop
  | nil : DocumentOrder d [] []
  | cons {c : NodeId} {cs below rest : List NodeId} : DocumentOrder d (d.children c) below →
    DocumentOrder d cs rest → DocumentOrder d (c :: cs) (c :: (below ++ rest))

/-- A walk with a stack: the node on top is visited, and its children take its place. -/
inductive Visits (d : Document) : List NodeId → List NodeId → Prop
  | done : Visits d [] []
  | visit {c : NodeId} {stack out : List NodeId} : Visits d (d.children c ++ stack) out →
    Visits d (c :: stack) (c :: out)

/-- A walk from parent to parent, until a node has none. -/
inductive Climbs (d : Document) : NodeId → List NodeId → Prop
  | top {x : NodeId} : d.parent? x = none → Climbs d x []
  | up {x p : NodeId} {ps : List NodeId} : d.parent? x = some p → Climbs d p ps →
    Climbs d x (p :: ps)

/-- The walks through a document find the same nodes, whichever way they go. -/
structure WalksAgree (d : Document) : Prop where
  ordered : ∀ a, d.DocumentOrder (d.children a) (d.descendants a)
  visits : ∀ a, d.Visits (d.children a) (d.descendants a)
  nodup : ∀ a, (d.descendants a).Nodup
  mem_descendants : ∀ a n, n ∈ d.descendants a ↔ TransGen (fun x p => x ∈ d.children p) n a
  climbs : ∀ n, d.Climbs n (d.ancestors n)
  isDescendant : ∀ a n, d.isDescendant a n = true ↔ n ∈ d.descendants a
  isAttached : ∀ n, d.isAttached n = true ↔ n = root ∨ n ∈ d.descendants root

/-- A walk with a stack lists what is below the nodes on top before it goes on with the others. -/
theorem DocumentOrder.visits (h : d.DocumentOrder cs out) (hrest : d.Visits stack rest) :
    d.Visits (cs ++ stack) (out ++ rest) := by
  induction h generalizing stack rest with
  | nil => exact hrest
  | cons _ _ ihbelow ihcs =>
    rw [List.cons_append, List.cons_append, List.append_assoc]
    exact .visit (ihbelow (ihcs hrest))

theorem documentOrder_flatMap {below : NodeId → List NodeId} : ∀ {cs : List NodeId},
    (∀ x ∈ cs, d.DocumentOrder (d.children x) (below x)) →
      d.DocumentOrder cs (cs.flatMap fun x => x :: below x)
  | [], _ => .nil
  | c :: cs, h => by
    rw [List.flatMap_cons, List.cons_append]
    exact .cons (h c List.mem_cons_self)
      (documentOrder_flatMap fun x hx => h x (List.mem_cons_of_mem c hx))

/-! ## How far the walks go

The fuel of a walk is enough if no way down, or up, from the node where it starts is longer. -/

theorem documentOrder_descendantsTo : ∀ {fuel : Nat} {c : NodeId},
    (∀ l, List.IsChain (fun p x => x ∈ d.children p) (c :: l) → l.length ≤ fuel) →
      d.DocumentOrder (d.children c) (d.descendantsTo fuel c)
  | 0, c, h => by
    have hnone : d.children c = [] := List.eq_nil_iff_forall_not_mem.mpr fun x hx => by
      have hlen := h [x] (List.isChain_pair.mpr hx)
      simp at hlen
    rw [hnone, descendantsTo]
    exact .nil
  | fuel + 1, c, h => by
    rw [descendantsTo]
    refine documentOrder_flatMap fun x hx => documentOrder_descendantsTo fun l hl => ?_
    have hlen := h (x :: l) (List.isChain_cons_cons.mpr ⟨hx, hl⟩)
    simpa using hlen

theorem climbs_ancestorsTo : ∀ {fuel : Nat} {x : NodeId},
    (∀ l, List.IsChain (fun x p => d.parent? x = some p) (x :: l) → l.length ≤ fuel) →
      d.Climbs x (d.ancestorsTo fuel x)
  | 0, x, h => by
    rw [ancestorsTo]
    refine .top (Option.eq_none_iff_forall_ne_some.mpr fun p hp => ?_)
    have hlen := h [p] (List.isChain_pair.mpr hp)
    simp at hlen
  | fuel + 1, x, h => by
    rw [ancestorsTo]
    rcases hp : d.parent? x with _ | p
    · exact .top hp
    · refine .up hp (climbs_ancestorsTo fun l hl => ?_)
      have hlen := h (p :: l) (List.isChain_cons_cons.mpr ⟨hp, hl⟩)
      simpa using hlen

namespace WellFormed

variable (hd : d.WellFormed)
include hd

theorem length_le_of_descent (h : List.IsChain (fun p x => x ∈ d.children p) (c :: l)) :
    l.length ≤ d.capacity := by
  by_cases hc : d.Live c
  · exact (hd.length_lt hc (h.imp fun _ _ => hd.mem_children_iff.mp)).le
  · rcases l with _ | ⟨x, l⟩
    · exact Nat.zero_le _
    · have hx := (List.isChain_cons_cons.mp h).1
      rw [hd.children_of_not_live hc] at hx
      cases hx

theorem length_le_of_climb (h : List.IsChain (fun x p => d.parent? x = some p) (x :: l)) :
    l.length ≤ d.capacity := by
  -- a way up, read backward, is a way down
  have hdown : List.IsChain (fun p x => x ∈ d.children p) (x :: l).reverse := by
    rw [List.isChain_reverse]
    exact h.imp fun _ _ hp => hd.mem_children.mpr (hd.parent?_eq_some_iff.mp hp)
  have hne : (x :: l).reverse ≠ [] := List.reverse_ne_nil_iff.mpr (List.cons_ne_nil x l)
  obtain ⟨c, m, hm⟩ := List.exists_cons_of_ne_nil hne
  have hlen : m.length = l.length := by simpa using (congrArg List.length hm).symm
  rw [hm] at hdown
  exact hlen ▸ hd.length_le_of_descent hdown

theorem documentOrder_descendants (a : NodeId) : d.DocumentOrder (d.children a) (d.descendants a) :=
  documentOrder_descendantsTo fun _ => hd.length_le_of_descent

theorem climbs_ancestors (n : NodeId) : d.Climbs n (d.ancestors n) :=
  climbs_ancestorsTo fun _ => hd.length_le_of_climb

/-! ## What the walks find -/

theorem descendants_of_not_live (ha : ¬ d.Live a) : d.descendants a = [] := by
  have h := hd.documentOrder_descendants a
  rw [hd.children_of_not_live ha] at h
  generalize d.descendants a = out at h
  cases h
  rfl

theorem mem_descendants : n ∈ d.descendants a ↔ TransGen d.Under n a := by
  by_cases ha : d.Live a
  · exact hd.mem_descendants_iff ha
  · rw [hd.descendants_of_not_live ha]
    refine iff_of_false List.not_mem_nil fun h => ha ?_
    obtain ⟨z, -, hz⟩ := TransGen.tail'_iff.mp h
    obtain ⟨s, hs, -⟩ := hd.parent hz
    exact hs.live

theorem nodup_descendants_of (a : NodeId) : (d.descendants a).Nodup := by
  by_cases ha : d.Live a
  · exact (List.nodup_cons.mp (hd.nodup_descendants ha)).2
  · rw [hd.descendants_of_not_live ha]
    exact List.nodup_nil

end WellFormed

/-- In a document that was parsed and went through legal operations, the walk downward from a node
lists the nodes below it, each once and in document order; a node is found by the walk upward from
just these nodes; and a node is attached just if it is the root or listed below the root. -/
theorem walksAgree_run (html : List Char) (ops : List Operation) (h : AllLegal (parse html) ops) :
    (run (parse html) ops).WalksAgree := by
  have hd := (h.sane (wellFormed_parse html)).1
  have hunder : (fun x p => x ∈ (run (parse html) ops).children p) =
      (run (parse html) ops).Under := by
    funext x p
    exact propext hd.mem_children
  refine ⟨hd.documentOrder_descendants, fun a => ?_, hd.nodup_descendants_of, fun a n => ?_,
    hd.climbs_ancestors, fun a n => ?_, fun n => ?_⟩
  · simpa using (hd.documentOrder_descendants a).visits .done
  · rw [hunder, hd.mem_descendants]
  · rw [hd.isDescendant_iff, hd.mem_descendants]
  · rw [hd.isAttached_iff, hd.mem_descendants, reflTransGen_iff_eq_or_transGen, eq_comm (a := n)]

/-- A list loses its first entry, which stays as a node by itself, and its second one goes to the
end of the document. -/
def regrouping : List Operation :=
  [.detach ⟨2, 0⟩, .appendChild root ⟨4, 0⟩]

theorem walksAgree_run_regrouping :
    AllLegal (parse "<ul><li>a</li><li>b</li></ul><hr>".toList) regrouping ∧
      (run (parse "<ul><li>a</li><li>b</li></ul><hr>".toList) regrouping).descendants root =
        [⟨1, 0⟩, ⟨6, 0⟩, ⟨4, 0⟩, ⟨5, 0⟩] ∧
      (run (parse "<ul><li>a</li><li>b</li></ul><hr>".toList) regrouping).descendants ⟨2, 0⟩ =
        [⟨3, 0⟩] ∧
      (run (parse "<ul><li>a</li><li>b</li></ul><hr>".toList) regrouping).WalksAgree := by
  have h : AllLegal (parse "<ul><li>a</li><li>b</li></ul><hr>".toList) regrouping :=
    (areLegal_iff (wellFormed_parse _)).mp (by decide +kernel)
  exact ⟨h, by decide +kernel, by decide +kernel, walksAgree_run _ _ h⟩

end LiveMarkup.Document
