import LiveMarkup.Proofs.Document.Handles
import LiveMarkup.Proofs.Markup.Progress

/-!
# Markup is read into a node

To read markup into a node is to add below it (`AddsBelow`): what is there stays, and only the node
itself gets more children; each new node is live, belongs to no marker and stands below the node.
One new node is appended to a node in this way (`WellFormed.addsBelow_append`), and what adds below
a node that was added adds below the first one (`AddsBelow.trans`), so all of the markup does
(`WellFormed.addsBelow_graftAll`).  The reader that keeps its own stack of open elements over the
document that grows makes the same of it (`Intake.read_eq`).
-/

namespace LiveMarkup.Document

open Relation

variable {d d' d'' : Document} {x p q : NodeId} {s : Slot} {made made' : List NodeId}

/-! ## Adding below a node -/

/-- The nodes `made` were added below a node, and nothing else was done. -/
structure AddsBelow (p : NodeId) (made : List NodeId) (d d' : Document) : Prop where
  wellFormed : d'.WellFormed
  /-- Nodes keep what they hold; only the children of the node itself go on. -/
  kept : ∀ x s, d.Holds x s → ∃ cs, d'.Holds x { s with children := s.children ++ cs } ∧
    (∀ c ∈ cs, c ∈ made) ∧ (x ≠ p → cs = [])
  new : ∀ x ∈ made, ¬ d.Live x ∧ ∃ s, d'.Holds x s ∧ s.owner = none ∧ TransGen d'.Under x p
  nodup : made.Nodup
  reached : ∀ x, d'.Live x → d.Live x ∨ x ∈ made

namespace AddsBelow

theorem refl (hd : d.WellFormed) (p : NodeId) : AddsBelow p [] d d where
  wellFormed := hd
  kept x s hs := ⟨[], by simpa using hs, by simp, fun _ => rfl⟩
  new := by simp
  nodup := List.nodup_nil
  reached _ := .inl

variable (h : AddsBelow p made d d')
include h

theorem live (hx : d.Live x) : d'.Live x :=
  let ⟨s, hs⟩ := hx
  let ⟨_, hs', _⟩ := h.kept x s hs
  hs'.live

theorem live_of_mem (hx : x ∈ made) : d'.Live x :=
  let ⟨_, _, hs, _⟩ := h.new x hx
  hs.live

theorem under (hx : d.Under x q) : d'.Under x q :=
  let ⟨s, hs, hq⟩ := hx
  let ⟨_, hs', _⟩ := h.kept x s hs
  ⟨_, hs', hq⟩

/-- To add below a node, or below one that was added there, is to add below the node. -/
theorem trans (h' : AddsBelow q made' d' d'') (hq : q = p ∨ q ∈ made) :
    AddsBelow p (made ++ made') d d'' where
  wellFormed := h'.wellFormed
  kept x s hs := by
    obtain ⟨cs, hs', hcs, hne⟩ := h.kept x s hs
    obtain ⟨cs', hs'', hcs', hne'⟩ := h'.kept x _ hs'
    refine ⟨cs ++ cs', by simpa using hs'', fun c hc => ?_, fun hxp => ?_⟩
    · exact List.mem_append.mpr ((List.mem_append.mp hc).imp (hcs c) (hcs' c))
    · have hxq : x ≠ q := by
        rcases hq with rfl | hq
        · exact hxp
        · rintro rfl
          exact (h.new x hq).1 hs.live
      rw [hne hxp, hne' hxq, List.append_nil]
  new x hx := by
    have hbelow : ∀ {y}, TransGen d'.Under y p → TransGen d''.Under y p :=
      TransGen.mono (fun _ _ => h'.under) _ _
    rcases List.mem_append.mp hx with hx | hx
    · obtain ⟨hnew, s, hs, howner, hxp⟩ := h.new x hx
      obtain ⟨_, hs', -⟩ := h'.kept x s hs
      exact ⟨hnew, _, hs', howner, hbelow hxp⟩
    · obtain ⟨hnew, s, hs, howner, hxq⟩ := h'.new x hx
      refine ⟨fun hlive => hnew (h.live hlive), s, hs, howner, ?_⟩
      rcases hq with rfl | hq
      · exact hxq
      · obtain ⟨-, _, -, -, hqp⟩ := h.new q hq
        exact hxq.trans (hbelow hqp)
  nodup := List.nodup_append'.mpr ⟨h.nodup, h'.nodup, fun x hx hx' =>
    (h'.new x hx').1 (h.live_of_mem hx)⟩
  reached x hx := by
    rcases h'.reached x hx with hx | hx
    · exact (h.reached x hx).imp_right (List.mem_append_left _)
    · exact .inr (List.mem_append_right _ hx)

theorem data_eq (hx : d.Live x) : d'.data x = d.data x := by
  obtain ⟨s, hs⟩ := hx
  obtain ⟨_, hs', -⟩ := h.kept x s hs
  rw [hs'.data_eq, hs.data_eq]

end AddsBelow

/-- A new node is added below the node that it is appended to. -/
theorem WellFormed.addsBelow_append (hd : d.WellFormed) (hp : d.Live p) (data : NodeData) :
    AddsBelow p [(d.create data).1] d ((d.create data).2.appendChild p (d.create data).1) ∧
      ((d.create data).2.appendChild p (d.create data).1).data (d.create data).1 = data := by
  obtain ⟨hgrows, -⟩ := (hd.create data).append hd hp.issued
  obtain ⟨hnone, -, hnew, hsw, -⟩ := create_spec hd.toSound data
  obtain ⟨sp, hsp⟩ := hp
  generalize (d.create data).1 = c at *
  generalize (d.create data).2 = d1 at *
  have hne : ∀ {x s}, d.Holds x s → x.index ≠ c.index := fun hs h => by
    rw [← h, hs.1] at hnone
    cases hnone
  have hkeep : ∀ {x s}, d.Holds x s → d1.Holds x s := fun hs => hsw.holds hs List.not_mem_nil
  obtain ⟨hc, hp', hsw', -⟩ := appendChild_spec hnew rfl (hkeep hsp) (hne hsp).symm
  have hunder : (d1.appendChild p c).Under c p := ⟨_, hc, rfl⟩
  refine ⟨⟨hgrows.wellFormed, fun x s hs => ?_, ?_, List.nodup_singleton c, fun x ⟨s, hs⟩ => ?_⟩,
    hc.data_eq⟩
  · by_cases hxp : x.index = p.index
    · obtain rfl := hs.eq_of_index_eq hsp hxp
      obtain rfl := hs.unique hsp
      exact ⟨[c], hp', fun _ => id, fun h => absurd rfl h⟩
    · have hsame := hsw'.holds (hkeep hs) (by simp [hne hs, hxp])
      exact ⟨[], by simpa using hsame, by simp, fun _ => rfl⟩
  · intro x hx
    obtain rfl := List.mem_singleton.mp hx
    exact ⟨fun ⟨s, hs⟩ => hne hs rfl, _, hc, rfl, .single hunder⟩
  · by_cases hxc : x.index = c.index
    · exact .inr (List.mem_singleton.mpr (hs.eq_of_index_eq hc hxc))
    by_cases hxp : x.index = p.index
    · exact .inl (hs.eq_of_index_eq hp' hxp ▸ ⟨sp, hsp⟩)
    · have h1 := hsw'.frame x.index (by simp [hxc, hxp]) (by simp [hxc, hxp])
      have h0 := hsw.frame x.index List.not_mem_nil (by simpa using hxc)
      exact .inl ⟨s, (h1.trans h0).symm.trans hs.1, hs.2⟩

/-- Trees that are grafted onto a node are added below it. -/
theorem WellFormed.addsBelow_graftAll : ∀ (ts : List Tree) {d : Document} {p : NodeId},
    d.WellFormed → d.Live p → AddsBelow p (d.graftedAll p ts) d (d.graftAll p ts)
  | [], d, p, hd, _ => by
    rw [graftedAll, Document.graftAll]
    exact .refl hd p
  | .node data ts :: rest, d, p, hd, hp => by
    rw [graftedAll, Document.graftAll, grafted, graft]
    obtain ⟨hnode, -⟩ := hd.addsBelow_append hp data
    have hc := List.mem_singleton_self (d.create data).1
    have hinner := WellFormed.addsBelow_graftAll ts hnode.wellFormed (hnode.live_of_mem hc)
    have hboth := hnode.trans hinner (.inr hc)
    have hrest := WellFormed.addsBelow_graftAll rest hboth.wellFormed (hboth.live hp)
    exact hboth.trans hrest (.inl rfl)

/-! ## Reading piece by piece -/

/-- A document into which markup is being read. -/
structure Intake where
  doc : Document
  /-- The open elements, the innermost one first. -/
  opened : List NodeId := []
  /-- The new nodes, in the order in which they were made. -/
  made : List NodeId := []

namespace Intake

/-- The node that a piece goes into: the innermost open element, or else the node `p` that the
markup is read into. -/
def current (p : NodeId) (r : Intake) : NodeId :=
  r.opened.headD p

/-- Trees more in the current node. -/
def add (p : NodeId) (r : Intake) (ts : List Tree) : Intake :=
  { r with
    doc := r.doc.graftAll (r.current p) ts
    made := r.made ++ r.doc.graftedAll (r.current p) ts }

/-- One piece more.  An end tag without an open element of its name is passed over. -/
def step (p : NodeId) (r : Intake) : Event → Intake
  | .whole t => r.add p [t]
  | .start e =>
    let (id, d) := r.doc.create (.element e)
    ⟨d.appendChild (r.current p) id, id :: r.opened, r.made ++ [id]⟩
  | .stop tag =>
    match r.opened.findIdx? fun id => (r.doc.element? id).any (·.tag = tag) with
    | some i => { r with opened := r.opened.drop (i + 1) }
    | none => r

/-- Markup read into a node of a document, piece by piece. -/
def read (d : Document) (p : NodeId) (html : List Char) : Intake :=
  (events html).foldl (step p) { doc := d }

end Intake

theorem graftAll_append : ∀ (as bs : List Tree) (d : Document) (p : NodeId),
    d.graftAll p (as ++ bs) = (d.graftAll p as).graftAll p bs
  | [], bs, d, p => by rw [List.nil_append, Document.graftAll]
  | a :: as, bs, d, p => by
    rw [List.cons_append, Document.graftAll, Document.graftAll, graftAll_append as bs]

theorem graftedAll_append : ∀ (as bs : List Tree) (d : Document) (p : NodeId),
    d.graftedAll p (as ++ bs) = d.graftedAll p as ++ (d.graftAll p as).graftedAll p bs
  | [], bs, d, p => by rw [List.nil_append, graftedAll, Document.graftAll, List.nil_append]
  | a :: as, bs, d, p => by
    rw [List.cons_append, graftedAll, graftedAll, Document.graftAll, graftedAll_append as bs,
      List.append_assoc]

namespace Intake

variable {r : Intake} {e : Element} {t : Tree} {ts : List Tree} {top : List Tree}
  {pending : List Pending} {b : Builder}

theorem add_nil (r : Intake) : r.add p [] = r := by
  rw [add, Document.graftAll, graftedAll, List.append_nil]

theorem add_add (r : Intake) (as bs : List Tree) : (r.add p as).add p bs = r.add p (as ++ bs) := by
  simp only [add, current, graftAll_append, graftedAll_append, List.append_assoc]

/-- What was read so far, put into a document: the trees on top, and then the open elements from the
outermost inward, each with the trees inside it. -/
def placed (d : Document) (p : NodeId) (top : List Tree) : List Pending → Intake
  | [] => add p { doc := d } top.reverse
  | f :: outer => ((placed d p top outer).step p (.start f.element)).add p f.inside.reverse

theorem placed_add (b : Builder) (t : Tree) :
    placed d p (b.add t).top (b.add t).pending =
      (placed d p b.top b.pending).step p (.whole t) := by
  obtain ⟨top, pending⟩ := b
  rcases pending with _ | ⟨f, outer⟩
  · rw [Builder.add, placed, placed, step, add_add, List.reverse_cons]
  · rw [Builder.add, placed, placed, step, add_add, List.reverse_cons]

/-- To close an element changes nothing but which elements are open. -/
theorem placed_close (b : Builder) : placed d p b.close.top b.close.pending =
    { placed d p b.top b.pending with opened := (placed d p b.top b.pending).opened.tail } := by
  obtain ⟨top, pending⟩ := b
  rcases pending with _ | ⟨f, outer⟩
  · rfl
  · rw [Builder.close, placed_add, placed]
    simp only [step, add, current, Document.graftAll, graft, graftedAll, grafted, List.append_nil,
      List.headD_cons, List.tail_cons, List.append_assoc, List.singleton_append]

theorem placed_closeMany (n : Nat) (b : Builder) :
    placed d p (b.closeMany n).top (b.closeMany n).pending =
      { placed d p b.top b.pending with opened := (placed d p b.top b.pending).opened.drop n } := by
  induction n generalizing b with
  | zero => rfl
  | succ n ih => rw [Builder.closeMany, ih, placed_close, List.drop_tail]

/-- What is known of a document into which markup is read: the new nodes were added below the node,
and the open elements are among them. -/
structure Sane (d : Document) (p : NodeId) (r : Intake) (pending : List Pending) : Prop where
  below : AddsBelow p r.made d r.doc
  opened : List.Forall₂ (fun id (f : Pending) => id ∈ r.made ∧ r.doc.data id = .element f.element)
    r.opened pending

namespace Sane

variable (h : r.Sane d p pending)
include h

theorem current_cases : r.current p = p ∨ r.current p ∈ r.made := by
  obtain ⟨doc, opened, made⟩ := r
  cases h.opened with
  | nil => exact .inl rfl
  | cons hhead _ => exact .inr hhead.1

theorem live_current (hp : d.Live p) : r.doc.Live (r.current p) := by
  rcases h.current_cases with heq | hmem
  · rw [heq]
    exact h.below.live hp
  · exact h.below.live_of_mem hmem

theorem opened_mono {made : List NodeId} {doc : Document} (h' : AddsBelow q made r.doc doc) :
    List.Forall₂ (fun id (f : Pending) => id ∈ r.made ++ made ∧ doc.data id = .element f.element)
      r.opened pending :=
  h.opened.imp fun _ _ ⟨hmem, hdata⟩ =>
    ⟨List.mem_append_left _ hmem, (h'.data_eq (h.below.live_of_mem hmem)).trans hdata⟩

theorem add (hp : d.Live p) (ts : List Tree) : (r.add p ts).Sane d p pending := by
  have hnext := WellFormed.addsBelow_graftAll ts h.below.wellFormed (h.live_current hp)
  exact ⟨h.below.trans hnext h.current_cases, h.opened_mono hnext⟩

theorem start (hp : d.Live p) (f : Pending) :
    (r.step p (.start f.element)).Sane d p (f :: pending) := by
  obtain ⟨hnext, hdata⟩ :=
    h.below.wellFormed.addsBelow_append (h.live_current hp) (.element f.element)
  exact ⟨h.below.trans hnext h.current_cases,
    .cons ⟨List.mem_append_right _ (List.mem_singleton_self _), hdata⟩ (h.opened_mono hnext)⟩

/-- An end tag closes the same element by the names of the open nodes as by those of the trees. -/
theorem findIdx?_eq (tag : String) :
    (r.opened.findIdx? fun id => (r.doc.element? id).any (·.tag = tag)) =
      pending.findIdx? fun f => f.element.tag = tag := by
  have hopened := h.opened
  clear h
  generalize r.opened = ids at hopened
  induction hopened with
  | nil => rfl
  | cons hhead _ ih =>
    rw [List.findIdx?_cons, List.findIdx?_cons, ih, element?, hhead.2]
    rfl

end Sane

theorem sane_placed (hd : d.WellFormed) (hp : d.Live p) (top : List Tree) :
    ∀ pending, (placed d p top pending).Sane d p pending
  | [] => Sane.add (r := { doc := d }) ⟨.refl hd p, .nil⟩ hp top.reverse
  | f :: outer => ((sane_placed hd hp top outer).start hp f).add hp f.inside.reverse

/-- One piece more is put into the document as into the trees. -/
theorem placed_step (hd : d.WellFormed) (hp : d.Live p) (b : Builder) (event : Event) :
    placed d p (b.step event).top (b.step event).pending =
      (placed d p b.top b.pending).step p event := by
  cases event with
  | whole t => exact placed_add b t
  | start e => exact add_nil _
  | stop tag =>
    rw [Builder.step, step, (sane_placed hd hp b.top b.pending).findIdx?_eq tag]
    generalize (b.pending.findIdx? fun f => f.element.tag = tag) = found
    cases found with
    | none => rfl
    | some i => exact placed_closeMany (i + 1) b

theorem placed_foldl (hd : d.WellFormed) (hp : d.Live p) : ∀ (es : List Event) (b : Builder),
    placed d p (es.foldl Builder.step b).top (es.foldl Builder.step b).pending =
      es.foldl (step p) (placed d p b.top b.pending)
  | [], _ => rfl
  | event :: es, b => by
    rw [List.foldl_cons, List.foldl_cons, placed_foldl hd hp es, placed_step hd hp]

/-- Piece by piece the same document comes about, and the same nodes are made, as by grafting the
trees of the markup. -/
theorem read_eq (hd : d.WellFormed) (hp : d.Live p) (html : List Char) :
    (read d p html).doc = d.parseInto p html ∧
      (read d p html).made = d.graftedAll p (Tree.parse html) := by
  have hread := placed_foldl hd hp (events html) {}
  rw [placed, List.reverse_nil, add_nil] at hread
  have hclosed := placed_closeMany (d := d) (p := p)
    ((events html).foldl Builder.step {}).pending.length ((events html).foldl Builder.step {})
  rw [Builder.pending_closeMany _ _ rfl, placed, hread] at hclosed
  exact ⟨(congrArg Intake.doc hclosed).symm, (congrArg Intake.made hclosed).symm⟩

end Intake

/-! ## All of the markup -/

/-- Markup is read into a node from its first character to its last, whatever it is, and no round
over the attributes of a tag is cut short.  Every node that was there stays, with what it is, its
parent, its owner and its children, but that the node itself gets new children after those it has.
Every node that is made is live, has no owner and stands below the node, and there are no others. -/
theorem parseInto_adds_below (hd : d.WellFormed) (hp : d.Live p) (html : List Char) :
    (ReadThrough html (events html) ∧ ∀ attributes cs fuel, cs.length < fuel →
      scanAttributes fuel attributes cs = scanAttributes (cs.length + 1) attributes cs) ∧
    (Intake.read d p html).doc = d.parseInto p html ∧
    (∀ x, d.Live x → (d.parseInto p html).Live x ∧ (d.parseInto p html).data x = d.data x ∧
      (d.parseInto p html).parent? x = d.parent? x ∧ (d.parseInto p html).owner? x = d.owner? x ∧
      (x ≠ p → (d.parseInto p html).children x = d.children x)) ∧
    (∃ cs, (d.parseInto p html).children p = d.children p ++ cs ∧
      ∀ c ∈ cs, c ∈ (Intake.read d p html).made) ∧
    (∀ x ∈ (Intake.read d p html).made, ¬ d.Live x ∧ (d.parseInto p html).Live x ∧
      (d.parseInto p html).owner? x = none ∧ (d.parseInto p html).isDescendant p x = true) ∧
    ∀ x, (d.parseInto p html).Live x → d.Live x ∨ x ∈ (Intake.read d p html).made := by
  obtain ⟨hdoc, hmade⟩ := Intake.read_eq hd hp html
  have h : AddsBelow p (Intake.read d p html).made d (d.parseInto p html) := by
    rw [hmade]
    exact WellFormed.addsBelow_graftAll (Tree.parse html) hd hp
  refine ⟨⟨readThrough_events html, fun _ _ _ hfuel =>
    scanAttributes_eq hfuel (Nat.lt_succ_self _)⟩, hdoc, fun x ⟨s, hs⟩ => ?_, ?_, fun x hx => ?_,
    h.reached⟩
  · obtain ⟨cs, hs', -, hcs⟩ := h.kept x s hs
    refine ⟨hs'.live, hs'.data_eq.trans hs.data_eq.symm, hs'.parent?_eq.trans hs.parent?_eq.symm,
      hs'.owner?_eq.trans hs.owner?_eq.symm, fun hne => ?_⟩
    rw [hs'.children_eq, hs.children_eq, hcs hne, List.append_nil]
  · obtain ⟨s, hs⟩ := hp
    obtain ⟨cs, hs', hcs, -⟩ := h.kept p s hs
    exact ⟨cs, by rw [hs'.children_eq, hs.children_eq], hcs⟩
  · obtain ⟨hnew, s, hs, howner, hbelow⟩ := h.new x hx
    exact ⟨hnew, hs.live, hs.owner?_eq.trans howner, h.wellFormed.isDescendant_iff.mpr hbelow⟩

/-- An end tag of an element that is not open, an element that is not closed, and a comment that is
cut off go into a paragraph with a text, beside a text of its own. -/
theorem parseInto_adds_below_malformed :
    (parse "<p>a</p>b".toList).WellFormed ∧ (parse "<p>a</p>b".toList).Live ⟨1, 0⟩ ∧
      ((parse "<p>a</p>b".toList).parseInto ⟨1, 0⟩ "</q><b x=>y<!--z".toList).children ⟨1, 0⟩ =
        [⟨2, 0⟩, ⟨4, 0⟩] ∧
      ∀ x ∈ (Intake.read (parse "<p>a</p>b".toList) ⟨1, 0⟩ "</q><b x=>y<!--z".toList).made,
        ((parse "<p>a</p>b".toList).parseInto ⟨1, 0⟩ "</q><b x=>y<!--z".toList).Live x ∧
        ((parse "<p>a</p>b".toList).parseInto ⟨1, 0⟩ "</q><b x=>y<!--z".toList).isDescendant
          ⟨1, 0⟩ x = true := by
  have hp : (parse "<p>a</p>b".toList).Live ⟨1, 0⟩ :=
    live_of_contains (by decide +kernel) (by decide +kernel)
  have h := parseInto_adds_below (wellFormed_parse _) hp "</q><b x=>y<!--z".toList
  exact ⟨wellFormed_parse _, hp, by decide +kernel, fun x hx =>
    ⟨(h.2.2.2.2.1 x hx).2.1, (h.2.2.2.2.1 x hx).2.2.2⟩⟩

end LiveMarkup.Document
