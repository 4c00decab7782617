import Mathlib.Data.List.Chain
import LiveMarkup.Proofs.Document.Ownership

/-!
# Walks through documents

A walk downward from a node comes to the nodes of the forest below it, in document order
(`descendants_eq`, `elements_eq`, `comments_eq`), and the tree below the node is that of the forest
(`subtree_eq`).  A walk upward comes to the nodes on the path to the root (`Path.isDescendant_eq`).
-/

namespace LiveMarkup

namespace Forest

variable {α : Type}

/-- The elements of a forest in document order. -/
def elements (f : Forest α) : List α :=
  (f.nodes.filter fun n => n.2.element?.isSome).map (·.1)

/-- The comments of a forest in document order, with their texts. -/
def comments (f : Forest α) : List (α × String) :=
  f.nodes.filterMap fun n => n.2.comment?.map (n.1, ·)

theorem elements_node (id : α) (data : NodeData) (cs ow rest : Forest α) :
    (node id data cs ow rest).elements = (if data.element?.isSome then [id] else []) ++
      (cs.elements ++ (ow.elements ++ rest.elements)) := by
  simp only [elements, nodes, List.filter_cons, List.filter_append]
  split <;> simp

theorem comments_node (id : α) (data : NodeData) (cs ow rest : Forest α) :
    (node id data cs ow rest).comments = (data.comment?.map (id, ·)).toList ++
      (cs.comments ++ (ow.comments ++ rest.comments)) := by
  simp only [comments, nodes, List.filterMap_cons, List.filterMap_append]
  rcases data.comment? with _ | text <;> rfl

end Forest

namespace Document

variable {d d' : Document} {id p under : NodeId} {data : NodeData} {s sp : Slot} {o : Option NodeId}
  {f g cs ow rest : Forest NodeId} {L R path : List NodeId} {fuel : Nat}

/-! ## Downward -/

theorem Held.data_eq (hf : Held d p o f) : ∀ n ∈ f.nodes, d.data n.1 = n.2 := by
  induction f generalizing p o with
  | nil => simp [Forest.nodes]
  | node id data cs ow rest ihc iho ihr =>
    obtain ⟨h1, h2, h3, h4⟩ := hf
    simp only [Forest.nodes, List.mem_cons, List.mem_append]
    rintro n (rfl | hn | hn | hn)
    exacts [h1.data_eq, ihc h2 n hn, iho h3 n hn, ihr h4 n hn]

theorem descendantsTo_eq (hf : Held d p o f) : ∀ {fuel : Nat}, f.nodes.length ≤ fuel →
    (f.tops.flatMap fun c => c :: d.descendantsTo fuel c) = f.nodes.map (·.1) := by
  induction f generalizing p o with
  | nil => exact fun _ => rfl
  | node id data cs ow rest ihc iho ihr =>
    obtain ⟨h1, h2, h3, h4⟩ := hf
    intro fuel hfuel
    simp only [Forest.nodes, List.length_cons, List.length_append] at hfuel
    obtain ⟨fuel, rfl⟩ : ∃ k, fuel = k + 1 := ⟨fuel - 1, by omega⟩
    have hself : d.descendantsTo (fuel + 1) id = cs.nodes.map (·.1) := by
      rw [descendantsTo, h1.children_eq]
      exact ihc h2 (by omega)
    simp only [Forest.tops, Forest.nodes, List.flatMap_cons, List.flatMap_append, List.map_cons,
      List.map_append, hself, iho h3 (show ow.nodes.length ≤ fuel + 1 by omega),
      ihr h4 (show rest.nodes.length ≤ fuel + 1 by omega), List.cons_append]

theorem subtreeTo_eq (hf : Held d p o f) : ∀ {fuel : Nat}, f.nodes.length ≤ fuel →
    f.tops.map (d.subtreeTo fuel) = f.trees := by
  induction f generalizing p o with
  | nil => exact fun _ => rfl
  | node id data cs ow rest ihc iho ihr =>
    obtain ⟨h1, h2, h3, h4⟩ := hf
    intro fuel hfuel
    simp only [Forest.nodes, List.length_cons, List.length_append] at hfuel
    obtain ⟨fuel, rfl⟩ : ∃ k, fuel = k + 1 := ⟨fuel - 1, by omega⟩
    have hself : d.subtreeTo (fuel + 1) id = .node data cs.trees := by
      rw [subtreeTo, h1.children_eq, h1.data_eq]
      exact congrArg _ (ihc h2 (by omega))
    simp only [Forest.tops, Forest.trees, List.map_cons, List.map_append, hself,
      iho h3 (show ow.nodes.length ≤ fuel + 1 by omega),
      ihr h4 (show rest.nodes.length ≤ fuel + 1 by omega)]

section

variable (hst : Stands d p sp none [] [] f)
include hst

theorem Stands.length_lt_capacity : f.nodes.length < d.capacity := by
  have h : (p.index :: f.ids).length ≤ d.capacity :=
    length_le_capacity (List.nodup_cons.mpr ⟨hst.apart, hst.nodup⟩) fun i hi => by
      rcases List.mem_cons.mp hi with rfl | hi
      exacts [⟨_, hst.parent.1⟩, hst.held.used hi]
  rw [length_nodes]
  rw [List.length_cons] at h
  omega

theorem Stands.children_eq : d.children p = f.tops := by
  simpa using hst.parent.children_eq

theorem descendants_eq : d.descendants p = f.nodes.map (·.1) := by
  obtain ⟨k, hk⟩ : ∃ k, d.capacity = k + 1 := ⟨d.capacity - 1, by have := hst.length_lt_capacity; omega⟩
  have := hst.length_lt_capacity
  rw [descendants, hk, descendantsTo, hst.children_eq]
  exact descendantsTo_eq hst.held (by omega)

theorem subtree_eq : d.subtree p = .node sp.data f.trees := by
  obtain ⟨k, hk⟩ : ∃ k, d.capacity = k + 1 := ⟨d.capacity - 1, by have := hst.length_lt_capacity; omega⟩
  have := hst.length_lt_capacity
  rw [subtree, hk, subtreeTo, hst.children_eq, hst.parent.data_eq]
  exact congrArg _ (subtreeTo_eq hst.held (by omega))

theorem elements_eq : d.elements p = f.elements := by
  rw [elements, descendants_eq hst, Forest.elements, List.filter_map]
  refine congrArg _ (List.filter_congr fun n hn => ?_)
  simp only [Function.comp_apply, element?, hst.held.data_eq n hn]

theorem comments_eq : d.comments p = f.comments := by
  rw [comments, descendants_eq hst, Forest.comments, List.filterMap_map]
  refine List.filterMap_congr fun n hn => ?_
  simp only [Function.comp_apply, hst.held.data_eq n hn]

end

/-! ## Upward -/

/-- The nodes from a node upward to another one or further, all of them outside a forest. -/
structure Path (d : Document) (f : Forest NodeId) (under p : NodeId) (path : List NodeId) : Prop where
  chain : List.IsChain (fun x y => ∃ s, d.Holds x s ∧ s.parent = some y) (p :: path)
  mem : under ∈ p :: path
  nodup : ((p :: path).map NodeId.index).Nodup
  outside : ∀ x ∈ p :: path, Outside d f x.index

theorem mem_ancestorsTo : ∀ {xs : List NodeId} {x : NodeId} {n : Nat},
    List.IsChain (fun x y => ∃ s, d.Holds x s ∧ s.parent = some y) (x :: xs) → xs.length ≤ n →
      ∀ y ∈ xs, y ∈ d.ancestorsTo n x
  | [], _, _, _, _, y, hy => by cases hy
  | z :: xs, x, n, hc, hn, y, hy => by
    obtain ⟨n, rfl⟩ : ∃ k, n = k + 1 := ⟨n - 1, by simp at hn; omega⟩
    rw [List.isChain_cons_cons] at hc
    obtain ⟨⟨s, hs, hparent⟩, hc⟩ := hc
    rw [ancestorsTo, hs.parent?_eq, hparent]
    rcases List.mem_cons.mp hy with rfl | hy
    · exact List.mem_cons_self
    · exact List.mem_cons_of_mem _ (mem_ancestorsTo hc (by simpa using hn) y hy)

namespace Path

variable (hpath : Path d f under p path)
include hpath

theorem isDescendant_eq (hs : d.Holds id s) (hparent : s.parent = some p) :
    d.isDescendant under id = true := by
  have hlen : ((p :: path).map NodeId.index).length ≤ d.capacity :=
    length_le_capacity hpath.nodup fun i hi => by
      obtain ⟨x, hx, rfl⟩ := List.mem_map.mp hi
      exact (hpath.outside x hx).2
  unfold isDescendant ancestors
  rw [decide_eq_true_eq]
  exact mem_ancestorsTo (List.isChain_cons_cons.mpr ⟨⟨s, hs, hparent⟩, hpath.chain⟩)
    (by simpa using hlen) under hpath.mem

theorem mono (hsub : ∀ i ∈ g.ids, i ∈ f.ids) : Path d g under p path :=
  ⟨hpath.chain, hpath.mem, hpath.nodup, fun x hx => (hpath.outside x hx).mono hsub⟩

theorem turn (ht : Turns p sp o L R f g d d') (hst : Stands d p sp o L R f) :
    Path d' g under p path := by
  have hkeep : ∀ x ∈ p :: path, ∀ s, d.Holds x s → ∃ s', d'.Holds x s' ∧ s'.parent = s.parent := by
    intro x hx s hs
    rcases List.mem_cons.mp hx with rfl | hmem
    · obtain rfl := hs.unique hst.parent
      exact ⟨_, ht.stands.parent, rfl⟩
    · have hne : x.index ≠ p.index := fun h =>
        (List.nodup_cons.mp hpath.nodup).1 (h ▸ List.mem_map_of_mem hmem)
      exact ⟨s, ht.swapped.holds hs (by simpa using ⟨hne, (hpath.outside x hx).1⟩), rfl⟩
  refine ⟨?_, hpath.mem, hpath.nodup, fun x hx =>
    (hpath.outside x hx).turn ht.swapped ht.stands.apart ⟨_, ht.stands.parent.1⟩⟩
  refine hpath.chain.imp_of_mem_imp ?_
  intro x y hx _ ⟨s, hs, hparent⟩
  obtain ⟨s', hs', heq⟩ := hkeep x hx s hs
  exact ⟨s', hs', heq.trans hparent⟩

end Path

theorem Path.inChildren (hpath : Path d (.node id data cs ow rest) under p path)
    (hst : Stands d p sp o L R (.node id data cs ow rest)) : Path d cs under id (p :: path) := by
  obtain ⟨h1, -⟩ := hst.held
  obtain ⟨hid, -⟩ := Forest.nodup_node hst.nodup
  have hout := (hpath.mono (g := cs) fun i hi => by simp [Forest.ids, hi]).outside
  refine ⟨List.isChain_cons_cons.mpr ⟨⟨_, h1, rfl⟩, hpath.chain⟩, List.mem_cons_of_mem _ hpath.mem,
    ?_, fun x hx => ?_⟩
  · rw [List.map_cons, List.nodup_cons]
    refine ⟨fun h => ?_, hpath.nodup⟩
    obtain ⟨x, hx, heq⟩ := List.mem_map.mp h
    exact (hpath.outside x hx).1 (by simp [Forest.ids, heq])
  · rcases List.mem_cons.mp hx with rfl | hx
    exacts [⟨hid.1, _, h1.1⟩, hout x hx]

theorem Stands.path_self (hst : Stands d p sp o L R f) : Path d f p p [] :=
  ⟨.singleton p, List.mem_singleton_self p, by simp, by simpa using ⟨hst.apart, _, hst.parent.1⟩⟩

end Document

end LiveMarkup
