import LiveMarkup.Proofs.Document.Operations

/-!
# Forests in documents

What stands below a node is a forest: each of its nodes has children, and right after it stand the
nodes that it owns (`Forest`).  A document holds a forest if every node of it is kept in a slot with
just its parent, children and owner (`Held`).

A forest stands among the children of a node, between other siblings (`Stands`).  An operation turns
it into another one in the same place (`Turns`), and then the forest around it is turned as well
(`Stands.turns_inChildren`, `Stands.turns_inOwned`, `Stands.turns_inRest`).
-/

namespace LiveMarkup

/-- Nodes beside each other: a first one with its children and the nodes that it owns, which come
right after it, and then the rest. -/
inductive Forest (α : Type) where
  | nil
  | node (id : α) (data : NodeData) (children owned rest : Forest α)

namespace Forest

variable {α : Type}

/-- The topmost nodes. -/
def tops : Forest α → List α
  | nil => []
  | node id _ _ owned rest => id :: (tops owned ++ tops rest)

/-- All nodes in document order. -/
def nodes : Forest α → List (α × NodeData)
  | nil => []
  | node id data children owned rest => (id, data) :: (nodes children ++ (nodes owned ++ nodes rest))

/-- The slots of all nodes. -/
def ids : Forest NodeId → List Nat
  | nil => []
  | node id _ children owned rest => id.index :: (ids children ++ (ids owned ++ ids rest))

/-- A forest without the handles of its nodes. -/
def shape : Forest α → Forest Unit
  | nil => nil
  | node _ data children owned rest => node () data (shape children) (shape owned) (shape rest)

/-- A forest as trees, in which it cannot be seen what owns a node. -/
def trees : Forest α → List Tree
  | nil => []
  | node _ data children owned rest =>
    .node data (trees children) :: (trees owned ++ trees rest)

/-- Trees as a forest in which nothing is owned. -/
def ofTrees : List Tree → Forest Unit
  | [] => nil
  | .node data ts :: rest => node () data (ofTrees ts) nil (ofTrees rest)

theorem trees_ofTrees : ∀ ts : List Tree, (ofTrees ts).trees = ts
  | [] => by rw [ofTrees, trees]
  | .node data ts :: rest => by
    rw [ofTrees, trees, trees_ofTrees ts, trees_ofTrees rest]
    rfl

theorem ids_eq (f : Forest NodeId) : f.ids = f.nodes.map fun n => n.1.index := by
  induction f with
  | nil => rfl
  | node id data cs ow rest ihc iho ihr => simp [ids, nodes, ihc, iho, ihr]

theorem trees_shape (f : Forest α) : f.shape.trees = f.trees := by
  induction f with
  | nil => rfl
  | node id data cs ow rest ihc iho ihr => simp [shape, trees, ihc, iho, ihr]

theorem index_mem_of_mem_tops {f : Forest NodeId} {x : NodeId} (h : x ∈ f.tops) :
    x.index ∈ f.ids := by
  induction f with
  | nil => cases h
  | node id data cs ow rest ihc iho ihr =>
    simp only [tops, List.mem_cons, List.mem_append] at h
    simp only [ids, List.mem_cons, List.mem_append]
    rcases h with rfl | h | h
    · exact .inl rfl
    · exact .inr (.inr (.inl (iho h)))
    · exact .inr (.inr (.inr (ihr h)))

theorem nodup_node {id : NodeId} {data : NodeData} {cs ow rest : Forest NodeId}
    (h : (node id data cs ow rest).ids.Nodup) :
    (id.index ∉ cs.ids ∧ id.index ∉ ow.ids ∧ id.index ∉ rest.ids) ∧
    (cs.ids.Nodup ∧ ow.ids.Nodup ∧ rest.ids.Nodup) ∧
    cs.ids.Disjoint ow.ids ∧ cs.ids.Disjoint rest.ids ∧ ow.ids.Disjoint rest.ids := by
  simp only [ids, List.nodup_cons, List.nodup_append', List.mem_append, not_or,
    List.disjoint_append_right] at h
  tauto

end Forest

namespace Document

variable {d d' d'' : Document} {id p x : NodeId} {data : NodeData} {s sp : Slot}
  {o : Option NodeId} {f g h cs cs' ow ow' rest rest' : Forest NodeId} {L R : List NodeId} {i : Nat}

/-- A document holds a forest below a node, with the given owner for the nodes that are not owned by
others of the forest. -/
def Held (d : Document) : NodeId → Option NodeId → Forest NodeId → Prop
  | _, _, .nil => True
  | p, o, .node id data cs ow rest =>
    d.Holds id ⟨data, id.generation, some p, cs.tops, o⟩ ∧ Held d id none cs ∧
      Held d p (some id) ow ∧ Held d p o rest

theorem Held.congr (hf : Held d p o f) (h : ∀ i ∈ f.ids, d'.used? i = d.used? i) :
    Held d' p o f := by
  induction f generalizing p o with
  | nil => trivial
  | node id data cs ow rest ihc iho ihr =>
    obtain ⟨h1, h2, h3, h4⟩ := hf
    simp only [Forest.ids, List.mem_cons, List.mem_append] at h
    exact ⟨⟨(h _ (.inl rfl)).trans h1.1, h1.2⟩, ihc h2 fun i hi => h i (.inr (.inl hi)),
      iho h3 fun i hi => h i (.inr (.inr (.inl hi))), ihr h4 fun i hi => h i (.inr (.inr (.inr hi)))⟩

theorem Held.used (hf : Held d p o f) (hi : i ∈ f.ids) : ∃ s, d.used? i = some s := by
  induction f generalizing p o with
  | nil => cases hi
  | node id data cs ow rest ihc iho ihr =>
    obtain ⟨h1, h2, h3, h4⟩ := hf
    simp only [Forest.ids, List.mem_cons, List.mem_append] at hi
    rcases hi with rfl | hi | hi | hi
    exacts [⟨_, h1.1⟩, ihc h2 hi, iho h3 hi, ihr h4 hi]

/-- A topmost node stands below the common parent, and is owned from outside or by another node of
the forest. -/
theorem Held.top (hf : Held d p o f) (hx : x ∈ f.tops) : ∃ s, d.Holds x s ∧ s.parent = some p ∧
    (s.owner = o ∨ ∃ u, s.owner = some u ∧ u.index ∈ f.ids) := by
  induction f generalizing o with
  | nil => cases hx
  | node id data cs ow rest ihc iho ihr =>
    obtain ⟨h1, -, h3, h4⟩ := hf
    simp only [Forest.tops, List.mem_cons, List.mem_append] at hx
    simp only [Forest.ids, List.mem_cons, List.mem_append]
    rcases hx with rfl | hx | hx
    · exact ⟨_, h1, rfl, .inl rfl⟩
    · obtain ⟨s, hs, hp, hown | ⟨u, hu, hi⟩⟩ := iho h3 hx
      · exact ⟨s, hs, hp, .inr ⟨id, hown, .inl rfl⟩⟩
      · exact ⟨s, hs, hp, .inr ⟨u, hu, .inr (.inr (.inl hi))⟩⟩
    · obtain ⟨s, hs, hp, hown | ⟨u, hu, hi⟩⟩ := ihr h4 hx
      · exact ⟨s, hs, hp, .inl hown⟩
      · exact ⟨s, hs, hp, .inr ⟨u, hu, .inr (.inr (.inr hi))⟩⟩

/-- A slot is in use by a node outside a forest. -/
def Outside (d : Document) (f : Forest NodeId) (i : Nat) : Prop :=
  i ∉ f.ids ∧ ∃ s, d.used? i = some s

/-- The root is there and has no parent. -/
def Rooted (d : Document) : Prop :=
  ∃ s, d.Holds root s ∧ s.parent = none

/-- A forest stands among the children of a node, after the siblings `L` and before the siblings
`R`.  Apart from its children the node is `sp`.  What owns the siblings after the forest, or the
forest itself, is outside of it. -/
structure Stands (d : Document) (p : NodeId) (sp : Slot) (o : Option NodeId) (L R : List NodeId)
    (f : Forest NodeId) : Prop where
  parent : d.Holds p { sp with children := L ++ (f.tops ++ R) }
  held : Held d p o f
  nodup : f.ids.Nodup
  apart : p.index ∉ f.ids
  siblings : ∀ x ∈ L ++ R, x.index ≠ p.index ∧ Outside d f x.index
  after : ∀ x ∈ R, ∃ s, d.Holds x s ∧ ∀ u, s.owner = some u → Outside d f u.index
  owner : ∀ u, o = some u → Outside d f u.index
  rooted : d.Rooted

/-- A forest has been turned into another one that stands in its place. -/
structure Turns (p : NodeId) (sp : Slot) (o : Option NodeId) (L R : List NodeId)
    (f g : Forest NodeId) (d d' : Document) : Prop where
  swapped : Swapped (p.index :: f.ids) (p.index :: g.ids) d d'
  stands : Stands d' p sp o L R g

/-- Nodes outside a forest stay there when it is turned. -/
theorem Outside.turn (h : Outside d f i) (hsw : Swapped (p.index :: f.ids) (p.index :: g.ids) d d')
    (hp : p.index ∉ g.ids) (hp' : ∃ s, d'.used? p.index = some s) : Outside d' g i := by
  by_cases hi : i = p.index
  · exact hi ▸ ⟨hp, hp'⟩
  · obtain ⟨hf, s, hs⟩ := h
    have hA : i ∉ p.index :: f.ids := by simp [hi, hf]
    exact ⟨fun hg => hsw.not_mem_of_used hs hA (List.mem_cons_of_mem _ hg), s, hsw.used?_eq hs hA⟩

theorem Held.root_not_mem (hf : Held d p o f) (hr : d.Rooted) : root.index ∉ f.ids := by
  obtain ⟨s, hs, hnone⟩ := hr
  induction f generalizing p o with
  | nil => simp [Forest.ids]
  | node id data cs ow rest ihc iho ihr =>
    obtain ⟨h1, h2, h3, h4⟩ := hf
    simp only [Forest.ids, List.mem_cons, List.mem_append, not_or]
    refine ⟨fun h => ?_, ihc h2, iho h3, ihr h4⟩
    have heq := Option.some.inj ((h ▸ hs.1).symm.trans h1.1)
    rw [heq] at hnone
    cases hnone

theorem Rooted.swap {sp' : Slot} {A B : List Nat} (hr : d.Rooted) (hp : d.Holds p sp)
    (hp' : d'.Holds p sp') (hparent : sp'.parent = sp.parent)
    (hsw : Swapped (p.index :: A) B d d') (hA : root.index ∉ A) : d'.Rooted := by
  obtain ⟨s, hs, hnone⟩ := hr
  by_cases hr : root.index = p.index
  · obtain rfl : root = p := hs.eq_of_index_eq hp hr
    obtain rfl := hs.unique hp
    exact ⟨_, hp', hparent.trans hnone⟩
  · exact ⟨s, hsw.holds hs (by simpa [hr] using hA), hnone⟩

/-- What has to be shown of a new forest for it to stand where another one stood. -/
theorem Stands.turns (hst : Stands d p sp o L R f)
    (hsw : Swapped (p.index :: f.ids) (p.index :: g.ids) d d')
    (hparent : d'.Holds p { sp with children := L ++ (g.tops ++ R) }) (hheld : Held d' p o g)
    (hnodup : g.ids.Nodup) (hapart : p.index ∉ g.ids) : Turns p sp o L R f g d d' := by
  have hout : ∀ i, Outside d f i → Outside d' g i := fun i hi => hi.turn hsw hapart ⟨_, hparent.1⟩
  refine ⟨hsw, hparent, hheld, hnodup, hapart, fun x hx => ?_, fun x hx => ?_, fun u hu => ?_, ?_⟩
  · exact ⟨(hst.siblings x hx).1, hout _ (hst.siblings x hx).2⟩
  · have hx' := hst.siblings x (List.mem_append_right L hx)
    obtain ⟨s, hs, hown⟩ := hst.after x hx
    exact ⟨s, hsw.holds hs (by simp [hx'.1, hx'.2.1]), fun u hu => hout _ (hown u hu)⟩
  · exact hout _ (hst.owner u hu)
  · exact hst.rooted.swap hst.parent hparent rfl hsw (hst.held.root_not_mem hst.rooted)

namespace Turns

theorem refl (h : Stands d p sp o L R f) : Turns p sp o L R f f d d :=
  ⟨Swapped.refl _ d, h⟩

theorem trans (h : Turns p sp o L R f g d d') (h' : Turns p sp o L R g cs d' d'') :
    Turns p sp o L R f cs d d'' :=
  ⟨h.swapped.trans h'.swapped, h'.stands⟩

end Turns

/-! ## Turning a part of a forest -/

theorem Outside.mono (h : Outside d f i) (hsub : ∀ j ∈ g.ids, j ∈ f.ids) : Outside d g i :=
  ⟨fun hg => h.1 (hsub i hg), h.2⟩

theorem Swapped.held {A B : List Nat} (h : Swapped A B d d') (hf : Held d p o f)
    (hA : ∀ i ∈ f.ids, i ∉ A) : Held d' p o f := by
  refine hf.congr fun i hi => ?_
  obtain ⟨s, hs⟩ := hf.used hi
  exact h.frame i (hA i hi) (h.not_mem_of_used hs (hA i hi))

theorem Swapped.disjoint {A B : List Nat} (h : Swapped A B d d') (hf : Held d p o f)
    (hA : ∀ i ∈ f.ids, i ∉ A) : B.Disjoint f.ids := fun i hB hi => by
  obtain ⟨s, hs⟩ := hf.used hi
  exact h.not_mem_of_used hs (hA i hi) hB

/-- The slot of the first node of a forest, apart from its children. -/
abbrev slotOf (id : NodeId) (data : NodeData) (p : NodeId) (o : Option NodeId) : Slot :=
  ⟨data, id.generation, some p, [], o⟩

namespace Stands

variable (hst : Stands d p sp o L R (.node id data cs ow rest))
include hst

theorem inChildren : Stands d id (slotOf id data p o) none [] [] cs := by
  obtain ⟨h1, h2, -, -⟩ := hst.held
  obtain ⟨hid, hnd, -⟩ := Forest.nodup_node hst.nodup
  exact ⟨by simpa using h1, h2, hnd.1, hid.1, by simp, by simp, by simp, hst.rooted⟩

theorem inOwned : Stands d p sp (some id) (L ++ [id]) (rest.tops ++ R) ow := by
  obtain ⟨h1, h2, h3, h4⟩ := hst.held
  obtain ⟨hid, hnd, hcow, hcr, howr⟩ := Forest.nodup_node hst.nodup
  have hmono : ∀ i, Outside d (.node id data cs ow rest) i → Outside d ow i := fun i hi =>
    hi.mono fun j hj => by simp [Forest.ids, hj]
  have hself : Outside d ow id.index := ⟨hid.2.1, _, h1.1⟩
  have hrest : ∀ i ∈ rest.ids, Outside d ow i := fun i hi => ⟨fun h => howr h hi, h4.used hi⟩
  have hapart := hst.apart
  simp only [Forest.ids, List.mem_cons, List.mem_append, not_or] at hapart
  refine ⟨by simpa [Forest.tops] using hst.parent, h3, hnd.2.1, hapart.2.2.1, fun x hx => ?_,
    fun x hx => ?_, fun u hu => ?_, hst.rooted⟩
  · simp only [List.mem_append, List.mem_singleton] at hx
    rcases hx with (hx | rfl) | hx | hx
    · have hx := hst.siblings x (List.mem_append_left R hx)
      exact ⟨hx.1, hmono _ hx.2⟩
    · exact ⟨Ne.symm hapart.1, hself⟩
    · have hx := Forest.index_mem_of_mem_tops hx
      exact ⟨fun h => hapart.2.2.2 (h ▸ hx), hrest _ hx⟩
    · have hx := hst.siblings x (List.mem_append_right L hx)
      exact ⟨hx.1, hmono _ hx.2⟩
  · rcases List.mem_append.mp hx with hx | hx
    · obtain ⟨s, hs, -, hown⟩ := h4.top hx
      refine ⟨s, hs, fun u hu => ?_⟩
      rcases hown with hown | ⟨u', hu', hi⟩
      · exact hmono _ (hst.owner u (hown.symm.trans hu))
      · obtain rfl := Option.some.inj (hu'.symm.trans hu)
        exact hrest _ hi
    · obtain ⟨s, hs, hown⟩ := hst.after x hx
      exact ⟨s, hs, fun u hu => hmono _ (hown u hu)⟩
  · obtain rfl := Option.some.inj hu
    exact hself

theorem inRest : Stands d p sp o (L ++ id :: ow.tops) R rest := by
  obtain ⟨h1, h2, h3, h4⟩ := hst.held
  obtain ⟨hid, hnd, hcow, hcr, howr⟩ := Forest.nodup_node hst.nodup
  have hmono : ∀ i, Outside d (.node id data cs ow rest) i → Outside d rest i := fun i hi =>
    hi.mono fun j hj => by simp [Forest.ids, hj]
  have hapart := hst.apart
  simp only [Forest.ids, List.mem_cons, List.mem_append, not_or] at hapart
  refine ⟨by simpa [Forest.tops] using hst.parent, h4, hnd.2.2, hapart.2.2.2, fun x hx => ?_,
    fun x hx => ?_, fun u hu => hmono _ (hst.owner u hu), hst.rooted⟩
  · simp only [List.mem_append, List.mem_cons] at hx
    rcases hx with (hx | rfl | hx) | hx
    · have hx := hst.siblings x (List.mem_append_left R hx)
      exact ⟨hx.1, hmono _ hx.2⟩
    · exact ⟨Ne.symm hapart.1, hid.2.2, _, h1.1⟩
    · have hx := Forest.index_mem_of_mem_tops hx
      exact ⟨fun h => hapart.2.2.1 (h ▸ hx), fun h => howr hx h, h3.used hx⟩
    · have hx := hst.siblings x (List.mem_append_right L hx)
      exact ⟨hx.1, hmono _ hx.2⟩
  · obtain ⟨s, hs, hown⟩ := hst.after x hx
    exact ⟨s, hs, fun u hu => hmono _ (hown u hu)⟩

/-- A forest around children that are turned. -/
theorem turns_inChildren (ht : Turns id (slotOf id data p o) none [] [] cs cs' d d') :
    Turns p sp o L R (.node id data cs ow rest) (.node id data cs' ow rest) d d' := by
  obtain ⟨h1, h2, h3, h4⟩ := hst.held
  obtain ⟨hid, hnd, hcow, hcr, howr⟩ := Forest.nodup_node hst.nodup
  have hapart := hst.apart
  simp only [Forest.ids, List.mem_cons, List.mem_append, not_or] at hapart
  have how : ∀ i ∈ ow.ids, i ∉ id.index :: cs.ids := fun i hi => by
    simpa using ⟨fun h => hid.2.1 (h ▸ hi), fun h => hcow h hi⟩
  have hrest : ∀ i ∈ rest.ids, i ∉ id.index :: cs.ids := fun i hi => by
    simpa using ⟨fun h => hid.2.2 (h ▸ hi), fun h => hcr h hi⟩
  have hp : p.index ∉ id.index :: cs.ids := by simpa using ⟨hapart.1, hapart.2.1⟩
  have hp' := ht.swapped.not_mem_of_used hst.parent.1 hp
  have hdow := ht.swapped.disjoint h3 how
  have hdrest := ht.swapped.disjoint h4 hrest
  simp only [List.mem_cons, not_or] at hp'
  simp only [List.disjoint_cons_left] at hdow hdrest
  refine hst.turns (ht.swapped.weaken ?_ ?_ ?_ ?_) (ht.swapped.holds hst.parent hp)
    ⟨by simpa using ht.stands.parent, ht.stands.held, ht.swapped.held h3 how,
      ht.swapped.held h4 hrest⟩ ?_ ?_
  · simp +contextual [Forest.ids]
  · simp +contextual [Forest.ids]
  · simp +contextual [Forest.ids, or_imp]
  · simp +contextual [Forest.ids, or_imp]
  · simp only [Forest.ids, List.nodup_cons, List.nodup_append', List.mem_append, not_or,
      List.disjoint_append_right]
    exact ⟨⟨ht.stands.apart, hid.2⟩, ht.stands.nodup, ⟨hnd.2.1, hnd.2.2, howr⟩, hdow.2, hdrest.2⟩
  · simp only [Forest.ids, List.mem_cons, List.mem_append, not_or]
    exact ⟨hp'.1, hp'.2, hapart.2.2⟩

/-- A forest around owned nodes that are turned. -/
theorem turns_inOwned
    (ht : Turns p sp (some id) (L ++ [id]) (rest.tops ++ R) ow ow' d d') :
    Turns p sp o L R (.node id data cs ow rest) (.node id data cs ow' rest) d d' := by
  obtain ⟨h1, h2, h3, h4⟩ := hst.held
  obtain ⟨hid, hnd, hcow, hcr, howr⟩ := Forest.nodup_node hst.nodup
  have hapart := hst.apart
  simp only [Forest.ids, List.mem_cons, List.mem_append, not_or] at hapart
  have hself : id.index ∉ p.index :: ow.ids := by simpa using ⟨Ne.symm hapart.1, hid.2.1⟩
  have hcs : ∀ i ∈ cs.ids, i ∉ p.index :: ow.ids := fun i hi => by
    simpa using ⟨fun h => hapart.2.1 (h ▸ hi), hcow hi⟩
  have hrest : ∀ i ∈ rest.ids, i ∉ p.index :: ow.ids := fun i hi => by
    simpa using ⟨fun h => hapart.2.2.2 (h ▸ hi), fun h => howr h hi⟩
  have hself' := ht.swapped.not_mem_of_used h1.1 hself
  have hdcs := ht.swapped.disjoint h2 hcs
  have hdrest := ht.swapped.disjoint h4 hrest
  simp only [List.mem_cons, not_or] at hself'
  simp only [List.disjoint_cons_left] at hdcs hdrest
  refine hst.turns (ht.swapped.weaken ?_ ?_ ?_ ?_)
    (by simpa [Forest.tops] using ht.stands.parent)
    ⟨ht.swapped.holds h1 hself, ht.swapped.held h2 hcs, ht.stands.held,
      ht.swapped.held h4 hrest⟩ ?_ ?_
  · simp +contextual [Forest.ids, or_imp]
  · simp +contextual [Forest.ids, or_imp]
  · simp +contextual [Forest.ids, or_imp]
  · simp +contextual [Forest.ids, or_imp]
  · simp only [Forest.ids, List.nodup_cons, List.nodup_append', List.mem_append, not_or,
      List.disjoint_append_right]
    exact ⟨⟨hid.1, hself'.2, hid.2.2⟩, hnd.1, ⟨ht.stands.nodup, hnd.2.2, hdrest.2⟩,
      List.disjoint_symm hdcs.2, hcr⟩
  · simp only [Forest.ids, List.mem_cons, List.mem_append, not_or]
    exact ⟨hapart.1, hapart.2.1, ht.stands.apart, hapart.2.2.2⟩

/-- A forest with a change of what its first node is. -/
theorem turns_data {data' : NodeData} (hsw : Swapped [id.index] [id.index] d d')
    (hself : d'.Holds id ⟨data', id.generation, some p, cs.tops, o⟩) :
    Turns p sp o L R (.node id data cs ow rest) (.node id data' cs ow rest) d d' := by
  obtain ⟨h1, h2, h3, h4⟩ := hst.held
  obtain ⟨hid, -⟩ := Forest.nodup_node hst.nodup
  have hapart := hst.apart
  simp only [Forest.ids, List.mem_cons, List.mem_append, not_or] at hapart
  have hne : ∀ g : Forest NodeId, id.index ∉ g.ids → ∀ i ∈ g.ids, i ∉ [id.index] :=
    fun g hg i hi h => hg (List.mem_singleton.mp h ▸ hi)
  refine hst.turns (hsw.weaken ?_ ?_ (fun i hi => .inr hi) fun i hi => .inr hi)
    (hsw.holds hst.parent (by simpa using hapart.1))
    ⟨hself, hsw.held h2 (hne _ hid.1), hsw.held h3 (hne _ hid.2.1), hsw.held h4 (hne _ hid.2.2)⟩
    hst.nodup hst.apart
  · simp [Forest.ids]
  · simp [Forest.ids]

/-- A forest of which the rest is turned. -/
theorem turns_inRest (ht : Turns p sp o (L ++ id :: ow.tops) R rest rest' d d') :
    Turns p sp o L R (.node id data cs ow rest) (.node id data cs ow rest') d d' := by
  obtain ⟨h1, h2, h3, h4⟩ := hst.held
  obtain ⟨hid, hnd, hcow, hcr, howr⟩ := Forest.nodup_node hst.nodup
  have hapart := hst.apart
  simp only [Forest.ids, List.mem_cons, List.mem_append, not_or] at hapart
  have hself : id.index ∉ p.index :: rest.ids := by simpa using ⟨Ne.symm hapart.1, hid.2.2⟩
  have hcs : ∀ i ∈ cs.ids, i ∉ p.index :: rest.ids := fun i hi => by
    simpa using ⟨fun h => hapart.2.1 (h ▸ hi), hcr hi⟩
  have how : ∀ i ∈ ow.ids, i ∉ p.index :: rest.ids := fun i hi => by
    simpa using ⟨fun h => hapart.2.2.1 (h ▸ hi), howr hi⟩
  have hself' := ht.swapped.not_mem_of_used h1.1 hself
  have hdcs := ht.swapped.disjoint h2 hcs
  have hdow := ht.swapped.disjoint h3 how
  simp only [List.mem_cons, not_or] at hself'
  simp only [List.disjoint_cons_left] at hdcs hdow
  refine hst.turns (ht.swapped.weaken ?_ ?_ ?_ ?_)
    (by simpa [Forest.tops] using ht.stands.parent)
    ⟨ht.swapped.holds h1 hself, ht.swapped.held h2 hcs, ht.swapped.held h3 how,
      ht.stands.held⟩ ?_ ?_
  · simp +contextual [Forest.ids, or_imp]
  · simp +contextual [Forest.ids, or_imp]
  · simp +contextual [Forest.ids, or_imp]
  · simp +contextual [Forest.ids, or_imp]
  · simp only [Forest.ids, List.nodup_cons, List.nodup_append', List.mem_append, not_or,
      List.disjoint_append_right]
    exact ⟨⟨hid.1, hid.2.1, hself'.2⟩, hnd.1, ⟨hnd.2.1, ht.stands.nodup, List.disjoint_symm hdow.2⟩, hcow,
      List.disjoint_symm hdcs.2⟩
  · simp only [Forest.ids, List.mem_cons, List.mem_append, not_or]
    exact ⟨hapart.1, hapart.2.1, hapart.2.2.1, ht.stands.apart⟩

end Stands

end Document

end LiveMarkup
