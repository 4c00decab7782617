import LiveMarkup.Proofs.Document.Confined

/-!
# Nodes that stay

While operations are applied to a document, a node stays if it is live before each of them and after
the last one (`Stays`).  Content made aside, put after a marker, or put below a node leaves all other
nodes where they are, whatever operations it takes (`AsideBy`, `ConfinedBy`).
-/

namespace LiveMarkup.Document

open Relation Operation

variable {d d' d'' : Document} {x c m p u F : NodeId} {a b ops rest : List Operation}
  {op : Operation} {A : Set NodeId}

/-- The nodes that stay while operations are applied. -/
def Stays (d : Document) (ops : List Operation) : Set NodeId :=
  {x | ∀ before after, ops = before ++ after → (run d before).Live x}

theorem live_of_mem_stays (h : x ∈ Stays d ops) : d.Live x :=
  h [] ops rfl

theorem live_run_of_mem_stays (h : x ∈ Stays d ops) : (run d ops).Live x :=
  h ops [] (List.append_nil ops).symm

theorem mem_stays_nil : x ∈ Stays d [] ↔ d.Live x := by
  refine ⟨live_of_mem_stays, fun hx before after h => ?_⟩
  rw [(List.append_eq_nil_iff.mp h.symm).1]
  exact hx

theorem mem_stays_cons : x ∈ Stays d (op :: ops) ↔ d.Live x ∧ x ∈ Stays (op.apply d) ops := by
  constructor
  · exact fun h => ⟨live_of_mem_stays h, fun before after heq => h (op :: before) after (heq ▸ rfl)⟩
  · rintro ⟨hx, h⟩ before after heq
    rcases List.cons_eq_append_iff.mp heq with ⟨rfl, -⟩ | ⟨before', rfl, hrest⟩
    · exact hx
    · exact h before' after hrest

theorem mem_stays_append : x ∈ Stays d (a ++ b) ↔ x ∈ Stays d a ∧ x ∈ Stays (run d a) b := by
  constructor
  · refine fun h => ⟨fun before after heq => h before (after ++ b) ?_, fun before after heq => ?_⟩
    · rw [heq, List.append_assoc]
    · rw [← run_append]
      exact h (a ++ before) after (by rw [heq, List.append_assoc])
  · rintro ⟨ha, hb⟩ before after heq
    rcases List.append_eq_append_iff.mp heq with ⟨l, rfl, h⟩ | ⟨l, h, -⟩
    · rw [run_append]
      exact hb l after h
    · exact ha before l h

/-- A node that is there after operations has stayed, unless they were so many that all generations of
its slot may have come. -/
theorem mem_stays_of_live (hd : d.WellFormed) (h : AllLegal d ops) (hx : d.Live x)
    (hx' : (run d ops).Live x) (hlen : ops.length < generations) : x ∈ Stays d ops := by
  rintro before after rfl
  obtain ⟨hbefore, hafter⟩ := allLegal_append.mp h
  obtain ⟨hd', hworn⟩ := hbefore.sane hd
  rw [run_append] at hx'
  rw [List.length_append] at hlen
  exact hworn.live_between (hafter.sane hd').2 hx hx' hlen hd.toSound

/-! ## Confined changes by operations -/

/-- Legal operations make a confined change, and all nodes outside of it stay. -/
structure ConfinedBy (u : NodeId) (ops : List Operation) (d d' : Document) : Prop
    extends Confined u d d' where
  legal : AllLegal d ops
  run_eq : run d ops = d'
  stays : ∀ x, d.Live x → ¬ TransGen d.Under x u → x ∈ Stays d ops

/-- Legal operations make content aside, and all nodes that were there stay. -/
structure AsideBy (c : NodeId) (ops : List Operation) (d d' : Document) : Prop
    extends Aside c d d' where
  legal : AllLegal d ops
  run_eq : run d ops = d'
  stays : ∀ x, d.Live x → x ∈ Stays d ops

namespace ConfinedBy

theorem nil (hd : d.WellFormed) (u : NodeId) : ConfinedBy u [] d d :=
  ⟨.refl hd u, trivial, rfl, fun _ hx _ => mem_stays_nil.mpr hx⟩

theorem single (op : Operation) (h : Confined u d (op.apply d)) (hop : op.Legal d) :
    ConfinedBy u [op] d (op.apply d) :=
  ⟨h, ⟨hop, trivial⟩, rfl, fun _ hx hxu =>
    mem_stays_cons.mpr ⟨hx, mem_stays_nil.mpr (h.keeps.live ⟨hx, hxu⟩ hx)⟩⟩

theorem append (h : ConfinedBy u a d d') (h' : ConfinedBy u b d' d'') (hd : d.WellFormed) :
    ConfinedBy u (a ++ b) d d'' where
  toConfined := h.toConfined.trans h'.toConfined hd
  legal := allLegal_append.mpr ⟨h.legal, h.run_eq ▸ h'.legal⟩
  run_eq := by rw [run_append, h.run_eq, h'.run_eq]
  stays x hx hxu := mem_stays_append.mpr ⟨h.stays x hx hxu, by
    rw [h.run_eq]
    refine h'.stays x (h.keeps.live ⟨hx, hxu⟩ hx) fun hxu' => hxu ?_
    exact (h.keeps.transGen_iff (hd.closed_not_below u) ⟨hx, hxu⟩).mp hxu'⟩

/-- Operations that make the same change to another node below which it is confined. -/
theorem widen (h : ConfinedBy c ops d d') (hd : d.WellFormed) (hc : TransGen d.Under c u) :
    ConfinedBy u ops d d' :=
  ⟨h.toConfined.widen hd hc, h.legal, h.run_eq,
    fun x hx hxu => h.stays x hx fun hxc => hxu (hxc.trans hc)⟩

end ConfinedBy

/-- Changes confined to one node, one after the other. -/
theorem foldl_confinedBy {step : Document → NodeId → Document}
    (hstep : ∀ (d : Document) (x : NodeId), d.WellFormed → (d.Live x → TransGen d.Under x u) →
      ∃ ops, ConfinedBy u ops d (step d x)) :
    ∀ (xs : List NodeId) {d : Document}, d.WellFormed → (∀ x ∈ xs, d.Live x → TransGen d.Under x u) →
      ∃ ops, ConfinedBy u ops d (xs.foldl step d)
  | [], _, hd, _ => ⟨[], .nil hd u⟩
  | x :: xs, d, hd, hxs => by
    obtain ⟨a, ha⟩ := hstep d x hd (hxs x List.mem_cons_self)
    obtain ⟨b, hb⟩ := foldl_confinedBy hstep xs ha.wellFormed fun y hy =>
      ha.toConfined.below (hxs y (List.mem_cons_of_mem x hy))
    exact ⟨a ++ b, ha.append hb hd⟩

namespace AsideBy

theorem legal_createFragment (html : List Char) : (Operation.createFragment html).Legal d :=
  ⟨fun _ hx => (List.not_mem_nil hx).elim, fun _ _ hx => (List.not_mem_nil hx).elim⟩

/-- A new fragment is made. -/
theorem createFragment (hd : d.WellFormed) (html : List Char) :
    AsideBy (d.createFragment html).1 [.createFragment html] d (d.createFragment html).2 :=
  have h := hd.aside_createFragment html
  ⟨h, ⟨legal_createFragment html, trivial⟩, rfl,
    fun _ hx => mem_stays_cons.mpr ⟨hx, mem_stays_nil.mpr (h.keeps.live hx hx)⟩⟩

theorem confined (h : AsideBy c a d d') (h' : ConfinedBy c b d' d'') (hd : d.WellFormed) :
    AsideBy c (a ++ b) d d'' where
  toAside := h.toAside.confined h'.toConfined hd
  legal := allLegal_append.mpr ⟨h.legal, h.run_eq ▸ h'.legal⟩
  run_eq := by rw [run_append, h.run_eq, h'.run_eq]
  stays x hx := mem_stays_append.mpr ⟨h.stays x hx, by
    rw [h.run_eq]
    exact h'.stays x (h.keeps.live hx hx) (h.toAside.not_below hd hx)⟩

section

variable (h : AsideBy F ops d d') (hd : d.WellFormed)
include h hd

/-- An operation by which content goes below an old node leaves all nodes that were there. -/
theorem append_emptied (op : Operation) (he : Emptied F p d' (op.apply d')) (hop : op.Legal d') :
    AllLegal d (ops ++ [op]) ∧ run d (ops ++ [op]) = op.apply d' ∧
      (∀ x, d.Live x → x ∈ Stays d (ops ++ [op])) ∧ Keeps {x | d.Live x} d (op.apply d') := by
  have hkeep : Keeps {x | d.Live x} d (op.apply d') :=
    h.keeps.trans (he.keeps _ (h.keeps.closed hd.closed_live) h.new)
  refine ⟨allLegal_append.mpr ⟨h.legal, h.run_eq ▸ ⟨hop, trivial⟩⟩, ?_, fun x hx => ?_, hkeep⟩
  · rw [run_append, h.run_eq]
    rfl
  · refine mem_stays_append.mpr ⟨h.stays x hx, mem_stays_cons.mpr ?_⟩
    rw [h.run_eq]
    exact ⟨h.keeps.live hx hx, mem_stays_nil.mpr (hkeep.live hx hx)⟩

theorem legal_insertOwned (hm : d.Live m) : (Operation.insertOwned m F).Legal d' where
  issued x hx := by
    rcases List.mem_cons.mp hx with rfl | hx
    · exact (h.keeps.live hm hm).issued
    · obtain rfl := List.mem_singleton.mp hx
      exact h.toAside.live.issued
  placeable b p hb := by
    obtain ⟨b', hb', hmem⟩ := List.mem_flatMap.mp hb
    obtain ⟨q, hq, heq⟩ := List.mem_map.mp hmem
    obtain ⟨rfl, rfl⟩ := Prod.mk.inj heq
    have hmq := (h.keeps.under_iff hd.closed_live hm).mp
      (h.wellFormed.parent?_eq_some_iff.mp (Option.mem_toList.mp hq))
    exact (h.toAside.placeable hd (hd.closed_live.parent hm hmq) b' hb').2

theorem appendFragment (hp : d.Live p) :
    ConfinedBy p (ops ++ [.appendFragment p F]) d (d'.appendFragment p F) := by
  have hlegal : (Operation.appendFragment p F).Legal d' := by
    refine ⟨fun x hx => ?_, fun b q hb => ?_⟩
    · rcases List.mem_cons.mp hx with rfl | hx
      · exact (h.keeps.live hp hp).issued
      · obtain rfl := List.mem_singleton.mp hx
        exact h.toAside.live.issued
    · obtain ⟨b', hb', heq⟩ := List.mem_map.mp hb
      obtain ⟨rfl, rfl⟩ := Prod.mk.inj heq
      exact (h.toAside.placeable hd hp b' hb').2
  obtain ⟨h1, h2, h3, -⟩ := h.append_emptied hd (.appendFragment p F)
    (h.toAside.emptied_appendFragment hd hp) hlegal
  exact ⟨h.toAside.confined_appendFragment hd hp, h1, h2, fun x hx _ => h3 x hx⟩

end

end AsideBy

/-! ## Content of markers -/

/-- What a marker owns is removed, and then its new content is made aside and goes after it. -/
structure Replaces (m : NodeId) (rest : List Operation) (d d' : Document) : Prop where
  legal : AllLegal d (.clearOwned m :: rest)
  run_eq : run d (.clearOwned m :: rest) = d'
  stays : ∀ x, (d.clearOwned m).2.Live x → x ∈ Stays (d.clearOwned m).2 rest
  keeps : Keeps {x | (d.clearOwned m).2.Live x} (d.clearOwned m).2 d'
  confined : ∀ u, TransGen d.Under m u → Confined u d d'

theorem legal_clearOwned (hm : d.Live m) : (Operation.clearOwned m).Legal d :=
  ⟨fun x hx => by obtain rfl := List.mem_singleton.mp hx; exact hm.issued, fun _ _ hx => by cases hx⟩

/-- Nothing goes after a marker. -/
theorem WellFormed.replaces_nil (hd : d.WellFormed) (hm : d.Live m) :
    Replaces m [] d (d.clearOwned m).2 :=
  ⟨⟨legal_clearOwned hm, trivial⟩, rfl, fun _ hx => mem_stays_nil.mpr hx, .refl _ _,
    fun _ => hd.confined_clearOwned⟩

/-- Content that was made aside goes after a marker. -/
theorem AsideBy.replaces (hd : d.WellFormed) (hm : d.Under m p)
    (h : AsideBy F ops (d.clearOwned m).2 d') :
    Replaces m (ops ++ [.insertOwned m F]) d (d'.insertOwned m F).2 := by
  have hd0 := (hd.clearOwned m).1.wellFormed
  have hm0 := (hd.under_clearOwned hm.live (u := p)).mpr (.single hm)
  obtain ⟨q, hmq, -⟩ := TransGen.head'_iff.mp hm0
  obtain ⟨h1, h2, h3, h4⟩ := h.append_emptied hd0 (.insertOwned m F)
    (h.toAside.emptied_insertOwned hd0 hmq) (h.legal_insertOwned hd0 hmq.live)
  refine ⟨⟨legal_clearOwned hm.live, h1⟩, h2, h3, h4, fun u hmu => ?_⟩
  have hafter := h.toAside.confined_insertOwned hd0 ((hd.under_clearOwned hm.live).mpr hmu)
  exact (hd.confined_clearOwned hmu).trans hafter hd

theorem Replaces.confinedBy (h : Replaces m rest d d') (hm : TransGen d.Under m u) (hd : d.WellFormed) :
    ConfinedBy u (.clearOwned m :: rest) d d' :=
  ⟨h.confined u hm, h.legal, h.run_eq, fun _ hx hxu =>
    have hlive := (hd.confined_clearOwned hm).keeps.live ⟨hx, hxu⟩ hx
    mem_stays_cons.mpr ⟨hx, h.stays _ hlive⟩⟩

/-! ## Operations that keep what stays -/

/-- Legal operations leave the nodes that stay as they were. -/
structure Lasts (ops : List Operation) (d d' : Document) : Prop where
  wellFormed : d'.WellFormed
  legal : AllLegal d ops
  run_eq : run d ops = d'
  keeps : Keeps (Stays d ops) d d'

namespace Lasts

theorem nil (hd : d.WellFormed) : Lasts [] d d :=
  ⟨hd, trivial, rfl, .refl _ d⟩

theorem append (h : Lasts a d d') (h' : Lasts b d' d'') : Lasts (a ++ b) d d'' where
  wellFormed := h'.wellFormed
  legal := allLegal_append.mpr ⟨h.legal, h.run_eq ▸ h'.legal⟩
  run_eq := by rw [run_append, h.run_eq, h'.run_eq]
  keeps := (h.keeps.mono fun _ hx => (mem_stays_append.mp hx).1).trans
    (h'.keeps.mono fun _ hx => h.run_eq ▸ (mem_stays_append.mp hx).2)

end Lasts

theorem Replaces.lasts (h : Replaces m rest d d') (hd : d.WellFormed) (hm : d.Under m p) :
    Lasts (.clearOwned m :: rest) d d' where
  wellFormed := (h.confined p (.single hm)).wellFormed
  legal := h.legal
  run_eq := h.run_eq
  keeps := by
    obtain ⟨S, hS, -⟩ := hd.pruned_clearOwned hm
    refine (hS.keeps fun x hx hxS => ?_).trans (h.keeps.mono fun x hx => live_of_mem_stays (mem_stays_cons.mp hx).2)
    obtain ⟨t, ht⟩ := live_of_mem_stays (mem_stays_cons.mp hx).2
    exact ((hS.holds x t).mp ht).1 hxS

/-- A node that was removed does not come again in the same operation. -/
theorem Freed.live_of_grown {d0 : Document} (h : Freed d d0) (hg : Grown d0 d') (hd : d.Sound)
    (hx : d.Live x) (hx' : d'.Live x) : d0.Live x := by
  obtain ⟨s, hs, hgen⟩ := hx
  obtain ⟨t, ht, htgen⟩ := hx'
  obtain ⟨s0, hs0, hcases⟩ := h _ s (slots_of_used? hs)
  obtain ⟨t', ht', htgen', hfree⟩ := hg _ s0 hs0
  obtain rfl := Option.some.inj (ht'.symm.trans (slots_of_used? ht))
  rcases hcases with ⟨hgen0, hiff⟩ | ⟨hgen0, -, -⟩
  · refine ⟨s0, ?_, by rw [hgen0, hgen]⟩
    rw [used?, if_neg fun hmem => not_mem_free ⟨hs, hgen⟩ (hiff.mp hmem), hs0]
  · -- the generation of the slot is another one
    have hlt := hd.generations _ s (slots_of_used? hs)
    have hsame : (s.generation + 1) % generations = s.generation := by omega
    have hpow : generations = 4294967296 := rfl
    rw [hpow] at hlt hsame
    omega

theorem legal_setInnerHtml (hc : d.Live c) (html : List Char) :
    (Operation.setInnerHtml c html).Legal d :=
  ⟨fun x hx => by obtain rfl := List.mem_singleton.mp hx; exact hc.issued, fun _ _ hx => by cases hx⟩

theorem WellFormed.lasts_setInnerHtml (hd : d.WellFormed) (hc : d.Live c) (html : List Char) :
    Lasts [.setInnerHtml c html] d (d.setInnerHtml c html) := by
  refine ⟨(hd.confined_setInnerHtml hc html).wellFormed, ⟨legal_setInnerHtml hc html, trivial⟩, rfl, ?_⟩
  have hpruned := hd.toDownward.removeChildren hc
  obtain ⟨hsteady, hissued, -⟩ := hd.steady_removeChildren hc.issued
  have hgrows := WellFormed.graftAll (Tree.parse html) hsteady.wellFormed hissued
  have hlive : ∀ x ∈ Stays d [.setInnerHtml c html], (d.removeChildren c).Live x := fun x hx =>
    hsteady.tidy.freed.live_of_grown hgrows.grown hd.toSound
      (live_of_mem_stays hx) (live_run_of_mem_stays hx)
  refine (hpruned.keeps fun x hx hxS => ?_).trans (hgrows.keeps.mono hlive)
  obtain ⟨t, ht⟩ := hlive x hx
  exact ((hpruned.holds x t).mp ht).1 hxS

end LiveMarkup.Document
