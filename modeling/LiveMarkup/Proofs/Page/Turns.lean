import LiveMarkup.Proofs.Document.Orderly
import LiveMarkup.Proofs.Page.Loops

/-!
# What loops have shown after a pass

At its turn a loop shows one instance for each item of its array, wherever its marker stands: in the
document, or in content that is made in the pass itself.  That is so of all turns in the trace of a pass
(`Faithful`), by induction on how the content is made (`buildsAsTold_build`).  What happens after the
last turn of a marker leaves its instances alone, and so they are there after the pass if the marker is
(`showUnder_instances`).

A marker has a turn whenever the loops below a node are shown and it is there
(`loop_mem_showEvents`).  A loop in the content of a group has two: one when the content is made, and
another with the loops of the document that the content has come into.
-/

namespace LiveMarkup

open Relation

namespace View

open Document Operation

variable {build : Build} {tells : Telling} {o : ViewOptions} {scope : Scope} {up : Update} {v : View}
  {r : Records} {p m under marker target : NodeId} {kind : DirectiveKind}
  {shows : NodeId → String → View → Option View} {told : NodeId → String → View → List Event}
  {d d' : Document} {op : Operation} {a b es : List Event}

/-! ## Events -/

/-- The marker of a loop names its record. -/
def Turn.Marked (r : Records) (d : Document) (t : Turn) : Prop :=
  ∃ text name, d.data t.marker = .comment text ∧ Marker.ofComment? text = some ⟨.loop, name⟩ ∧
    r.loop? name = some t.loop

theorem Turn.Marked.of_look_eq {t : Turn} (h : t.Marked r d)
    (hlook : (d'.data t.marker).look = (d.data t.marker).look) : t.Marked r d' := by
  obtain ⟨text, name, hdata, hrest⟩ := h
  refine ⟨text, name, ?_, hrest⟩
  rw [hdata] at hlook
  cases hdata' : d'.data t.marker <;> rw [hdata'] at hlook <;> cases hlook
  rfl

/-- A loop shows what it should in a document: one instance for each item of its array, or, if the value
of the array is none, what was there when the loops shown together with it began to have their turns. -/
structure Turn.Shown (o : ViewOptions) (r : Records) (d : Document) (t : Turn) : Prop where
  marked : t.Marked r d
  placed : ∀ items, t.items? o = some items → ∀ i < items.length,
    ∃ html, r.bodies.lookup (Placement.ofLoop t.loop i).place = some html
  items : ∀ items, t.items? o = some items → d.looks (d.instances t.marker) =
    (List.range items.length).flatMap fun i => topLooks (r.body o.depth t.loop i).1
  same : t.items? o = none → d.instances t.marker = t.start.instances t.marker

theorem Turn.Shown.of_sameInstances {t : Turn} (h : t.Shown o r d) (hsame : SameInstances t.marker d d') :
    t.Shown o r d' where
  marked := h.marked.of_look_eq hsame.look_eq
  placed := h.placed
  items items hitems := by rw [hsame.instances_eq, hsame.looks_eq, h.items items hitems]
  same hnone := by rw [hsame.instances_eq, h.same hnone]

/-- Events happen as they should: operations are orderly, one that is about a marker belongs to a turn of
this marker, and when a loop has had its turn its marker is there and shows what it should. -/
def Faithful (o : ViewOptions) (r : Records) : Document → List Event → Prop
  | _, [] => True
  | d, .operation op :: es =>
    op.Orderly d ∧ (∀ m, op.marker? = some m → ∃ e ∈ es, e.marker? = some m) ∧
      Faithful o r (op.apply d) es
  | d, .loop t :: es => (d.Live t.marker ∧ t.Shown o r d) ∧ Faithful o r d es
  | d, .group _ :: es => Faithful o r d es
  | d, .cut :: es => Faithful o r d es

theorem Faithful.append (ha : Faithful o r d a) (hb : Faithful o r (run d (operations a)) b) :
    Faithful o r d (a ++ b) := by
  induction a generalizing d with
  | nil => exact hb
  | cons e a ih =>
    cases e with
    | operation op =>
      refine ⟨ha.1, fun m hm => ?_, ih ha.2.2 hb⟩
      obtain ⟨e, he, hem⟩ := ha.2.1 m hm
      exact ⟨e, List.mem_append_left b he, hem⟩
    | loop t => exact ⟨ha.1, ih ha.2 hb⟩
    | group marker => exact ih ha hb
    | cut => exact ih ha hb

theorem Faithful.right (h : Faithful o r d (a ++ b)) : Faithful o r (run d (operations a)) b := by
  induction a generalizing d with
  | nil => exact h
  | cons e a ih =>
    cases e with
    | operation op => exact ih h.2.2
    | loop t => exact ih h.2
    | group marker => exact ih h
    | cut => exact ih h

theorem Faithful.allOrderly (h : Faithful o r d es) : AllOrderly d (operations es) := by
  induction es generalizing d with
  | nil => trivial
  | cons e es ih =>
    cases e with
    | operation op => exact ⟨h.1, ih h.2.2⟩
    | loop t => exact ih h.2
    | group marker => exact ih h
    | cut => exact ih h

/-- No operation is about a marker that has no turn any more. -/
theorem Faithful.marker?_ne (h : Faithful o r d es) (hm : ∀ e ∈ es, e.marker? ≠ some m) :
    ∀ op ∈ operations es, op.marker? ≠ some m := by
  induction es generalizing d with
  | nil => exact fun op hop => (List.not_mem_nil hop).elim
  | cons e es ih =>
    have hrest := fun e' he' => hm e' (List.mem_cons_of_mem e he')
    cases e with
    | operation op =>
      rintro op' hop'
      rcases List.mem_cons.mp hop' with rfl | hop'
      · intro hmarker
        obtain ⟨e, he, hem⟩ := h.2.1 m hmarker
        exact hrest e he hem
      · exact ih h.2.2 hrest op' hop'
    | loop t => exact ih h.2 hrest
    | group marker => exact ih h hrest
    | cut => exact ih h hrest

/-- Events happen as they should if owners are settled for them. -/
def Recounted (o : ViewOptions) (r : Records) (d : Document) (es : List Event) : Prop :=
  (operations es).length < generations → d.OwnersSettled (operations es).length → Faithful o r d es

namespace Recounted

/-- Some events happen, then an operation, and then the others. -/
theorem deliver (ha : Recounted o r d a) (hd : d.WellFormed) (hlegal : AllLegal d (operations a))
    (hop : op.Legal (run d (operations a)))
    (horderly : d.OwnersSettled (operations a).length → op.Orderly (run d (operations a)))
    (hturn : ∀ m, op.marker? = some m → ∃ e ∈ b, e.marker? = some m)
    (hb : Recounted o r (op.apply (run d (operations a))) b) :
    Recounted o r d (a ++ .operation op :: b) := by
  intro hlen hsettled
  rw [operations_append, operations_operation, List.append_cons, List.length_append] at hlen hsettled
  have hshort := (hsettled.mono (Nat.le_add_right ..)).of_append
  have hfaithful := ha (by rw [List.length_append] at hlen; omega) hshort
  have hall : AllOrderly d (operations a ++ [op]) :=
    allOrderly_append.mpr ⟨hfaithful.allOrderly, horderly hshort, trivial⟩
  have hrest := hall.ownersSettled hd (allLegal_append.mpr ⟨hlegal, hop, trivial⟩) hsettled hlen
  rw [run_append] at hrest
  exact hfaithful.append ⟨horderly hshort, hturn, hb (by omega) hrest⟩

theorem operation (hd : d.WellFormed) (hop : op.Legal d) (horderly : op.Orderly d)
    (hturn : ∀ m, op.marker? = some m → ∃ e ∈ es, e.marker? = some m)
    (h : Recounted o r (op.apply d) es) : Recounted o r d (.operation op :: es) :=
  deliver (a := []) (fun _ _ => trivial) hd trivial hop (fun _ => horderly) hturn h

theorem append (ha : Recounted o r d a) (hd : d.WellFormed) (hlegal : AllLegal d (operations a))
    (hb : Recounted o r (run d (operations a)) b) : Recounted o r d (a ++ b) := by
  intro hlen hsettled
  rw [operations_append, List.length_append] at hlen hsettled
  have hfaithful := ha (by omega) (hsettled.mono (Nat.le_add_right ..))
  exact hfaithful.append
    (hb (by omega) (hfaithful.allOrderly.ownersSettled hd hlegal hsettled hlen))

end Recounted

/-- A way of making fragments does what is told of it, and adds to the records no others than those
given. -/
structure BuildsAsTold (o : ViewOptions) (r : Records) (build : Build) (tells : Telling) : Prop where
  aside : BuildsAside build tells
  stocked : BuildsStocked build
  extending : BuildsExtending build
  recounted : ∀ (scope : Scope) (html : List Char) (v : View), v.document.WellFormed →
    (build scope html v).2.records.Extends r → Recounted o r v.document (tells scope html v)

/-! ## Turns -/

theorem recounted_groupEvents (hb : BuildsAsTold o r build tells) (hd : v.document.WellFormed)
    (hm : v.document.Under marker p) (g : ConditionGroup)
    (hr : (v.showGroup build o scope marker g).records.Extends r) :
    Recounted o r v.document (groupEvents build tells o scope marker g v) := by
  have hd0 := (hd.clearOwned marker).1.wellFormed
  have hm0 := hd.under_clearOwned_parent hm
  have hidle : Recounted o r v.document [.operation (.clearOwned marker), .group marker] := by
    refine .operation hd (legal_clearOwned hm.live) hm.live ?_ fun _ _ => trivial
    rintro _ ⟨⟩
    exact ⟨_, List.mem_singleton_self _, rfl⟩
  unfold showGroup at hr
  unfold groupEvents
  dsimp only at hr ⊢
  generalize chosenBlock o scope g = chosen at hr ⊢
  rcases chosen with _ | b
  · exact hidle
  · dsimp only at hr ⊢
    by_cases hblank : Text.trim b.content.toList = []
    · rw [if_pos hblank]
      exact hidle
    · rw [if_neg hblank] at hr ⊢
      have haside := hb.aside scope b.content.toList
        { v with document := (v.document.clearOwned marker).2 } hd0
      have hstocked := hb.stocked scope b.content.toList
        { v with document := (v.document.clearOwned marker).2 } hd0
      have hnew := hb.recounted scope b.content.toList
        { v with document := (v.document.clearOwned marker).2 } hd0 hr
      refine .operation hd (legal_clearOwned hm.live) hm.live ?_ ?_
      · rintro _ ⟨⟩
        exact ⟨.group marker, by simp, rfl⟩
      · refine hnew.deliver hd0 haside.legal ?_ (fun hsettled => ?_) ?_ fun _ _ => trivial
        · rw [haside.run_eq]
          exact haside.legal_insertOwned hd0 hm0.live
        · rw [haside.run_eq]
          exact ⟨_, p, hd0, haside.toAside, hm0, hstocked.apart hd0 haside.legal haside.run_eq hsettled
            (hd0.closed_live.parent hm0.live hm0)⟩
        · rintro _ ⟨⟩
          exact ⟨_, List.mem_singleton_self _, rfl⟩

theorem recounted_itemEvents (hb : BuildsAsTold o r build tells) (scope : Scope) (l : LoopDefinition) :
    ∀ (items : List Value) (i : Nat) (v : View), v.document.WellFormed → v.document.Live target →
      (addItems build o scope l target i items v).records.Extends r →
        Recounted o r v.document (itemEvents build tells o scope l target i items v)
  | [], _, _, _, _, _ => fun _ _ => trivial
  | item :: items, i, v, hd, htarget, hr => by
    have haside := hb.aside (itemScope scope l i item) (v.records.body o.depth l i).1
      { v with records := (v.records.body o.depth l i).2 } hd
    have hstocked := hb.stocked (itemScope scope l i item) (v.records.body o.depth l i).1
      { v with records := (v.records.body o.depth l i).2 } hd
    have hnew := hb.recounted (itemScope scope l i item) (v.records.body o.depth l i).1
      { v with records := (v.records.body o.depth l i).2 } hd
    have happend := haside.appendFragment hd htarget
    rw [addItems_cons] at hr
    have hnext := (extends_addItems hb.extending scope l target items (i + 1) _).trans hr
    rw [itemEvents]
    refine (hnew hnext).deliver hd haside.legal ?_ (fun hsettled => ?_) (by rintro _ ⟨⟩) ?_
    · exact (allLegal_append.mp happend.legal).2.1
    · rw [haside.run_eq]
      exact ⟨_, hd, haside.toAside, htarget,
        hstocked.apart hd haside.legal haside.run_eq hsettled htarget⟩
    · rw [haside.run_eq]
      exact recounted_itemEvents hb scope l items (i + 1) _ happend.wellFormed
        (happend.keeps.live ⟨htarget, hd.acyclic target⟩ htarget) hr

theorem recounted_loopEvents (hb : BuildsAsTold o r build tells) (hd : v.document.WellFormed) {t : Turn}
    (hm : v.document.Under t.marker p) (hmarked : t.Marked r v.document) {items : List Value}
    (hitems : t.items? o = some items)
    (hr : (v.showLoop build o t.scope t.marker t.loop items).records.Extends r) :
    Recounted o r v.document (loopEvents build tells o t items v) := by
  have hd0 := (hd.clearOwned t.marker).1.wellFormed
  have hm0 := hd.under_clearOwned_parent hm
  have hnew := AsideBy.createFragment hd0 []
  have haside := asideBy_addItems hb.aside o t.scope t.loop hd0 items 0
    { v with document := ((v.document.clearOwned t.marker).2.createFragment []).2 } hnew
  have hstocked := stocked_addItems hb.stocked hb.extending t.scope t.loop hd0 r items 0
    { v with document := ((v.document.clearOwned t.marker).2.createFragment []).2 }
    (hd0.stocked_createFragment []) hr
  obtain ⟨hfilled, hshown⟩ := shown_showLoop (o := o) hb.stocked hb.extending hd hm
    t.loop items
  rw [document_showLoop] at hfilled hshown
  have hbelow : Recounted o r (v.document.clearOwned t.marker).2 (.operation (.createFragment []) ::
      itemEvents build tells o t.scope t.loop ((v.document.clearOwned t.marker).2.createFragment []).1 0
        items { v with document := ((v.document.clearOwned t.marker).2.createFragment []).2 }) :=
    .operation hd0 (AsideBy.legal_createFragment []) trivial (by rintro _ ⟨⟩)
      (recounted_itemEvents hb t.scope t.loop items 0 _ hnew.wellFormed hnew.toAside.live hr)
  unfold loopEvents
  refine .operation hd (legal_clearOwned hm.live) hm.live ?_ ?_
  · rintro _ ⟨⟩
    exact ⟨.loop t, by simp, rfl⟩
  · refine hbelow.deliver hd0 haside.legal ?_ (fun hsettled => ?_) ?_ fun _ _ => ?_
    · rw [operations_operation, ← List.singleton_append, haside.run_eq]
      exact haside.legal_insertOwned hd0 hm0.live
    · rw [operations_operation, ← List.singleton_append, haside.run_eq]
      exact ⟨_, p, hd0, haside.toAside, hm0, hstocked.apart hd0 haside.legal haside.run_eq hsettled
        (hd0.closed_live.parent hm0.live hm0)⟩
    · rintro _ ⟨⟩
      exact ⟨_, List.mem_singleton_self _, rfl⟩
    · rw [operations_operation, ← List.singleton_append, haside.run_eq]
      have hplaced := placed_addItems hb.extending t.scope t.loop _ items 0 _ hr
      have hdata := (hfilled.keeps.data_eq hd0.closed_live hm0.live).trans
        ((retains_clearOwned v.document t.marker).data_eq hm0.live)
      refine ⟨⟨hfilled.keeps.live hm0.live hm0.live,
        hmarked.of_look_eq (congrArg NodeData.look hdata), fun items' hitems' i hi => ?_,
        fun items' hitems' => ?_, fun hnone => ?_⟩, trivial⟩
      · rw [Option.some.inj (hitems'.symm.trans hitems)] at hi
        exact Nat.zero_add i ▸ hplaced i hi
      · rw [Option.some.inj (hitems'.symm.trans hitems)]
        exact hshown r hr
      · rw [hitems] at hnone
        cases hnone

/-- A comment that marks a loop has its turn. -/
theorem recounted_loopTeller (hb : BuildsAsTold o r build tells) (start : Document) {id : NodeId}
    {name text : String} (hd : v.document.WellFormed) (hm : v.document.Under id p)
    (hr : ((loopShower build o scope up id name v).getD v).records.Extends r)
    (hdata : v.document.data id = .comment text)
    (hmarker : Marker.ofComment? text = some ⟨.loop, name⟩)
    (hsame : v.document.instances id = start.instances id) :
    Recounted o r v.document (loopTeller build tells o scope up start id name v) := by
  have hrecords : v.records.Extends r := by
    rcases hv : loopShower build o scope up id name v with _ | v' <;> rw [hv] at hr
    · exact hr
    · exact (showsExtending_loop o scope up hb.extending id name v v' hv).trans hr
  unfold loopShower at hr
  unfold loopTeller
  rcases hl : v.records.loop? name with _ | l <;> rw [hl] at hr
  · exact fun _ _ => trivial
  · have hmarked : Turn.Marked r v.document ⟨id, l, scope, start⟩ :=
      ⟨text, name, hdata, hmarker, hrecords.loop name l hl⟩
    simp only [Option.bind_eq_bind, Option.bind_some] at hr ⊢
    by_cases hmeets : up.meets l.vars = true
    · rw [if_pos hmeets] at hr ⊢
      rcases hitems : (valueOf o.namesItems scope l.array.toList).items? with _ | items <;>
        simp only [Turn.items?, hitems, Option.bind_some, Option.getD_some] at hr ⊢
      · have hnone : ∀ items, Turn.items? o ⟨id, l, scope, start⟩ ≠ some items := fun items hsome => by
          rw [Turn.items?, hitems] at hsome
          cases hsome
        exact fun _ _ => ⟨⟨hm.live, hmarked, fun items hsome => absurd hsome (hnone items),
          fun items hsome => absurd hsome (hnone items), fun _ => hsame⟩, trivial⟩
      · exact recounted_loopEvents (t := ⟨id, l, scope, start⟩) hb hd hm hmarked hitems hr
    · rw [if_neg hmeets]
      exact fun _ _ => trivial

theorem recounted_groupTeller (hb : BuildsAsTold o r build tells) {id : NodeId} {name : String}
    (hd : v.document.WellFormed) (hm : v.document.Under id p)
    (hr : ((groupShower build o scope up id name v).getD v).records.Extends r) :
    Recounted o r v.document (groupTeller build tells o scope up id name v) := by
  unfold groupShower at hr
  unfold groupTeller
  generalize v.records.group? name = found at hr ⊢
  rcases found with _ | g
  · exact fun _ _ => trivial
  · simp only [Option.bind_eq_bind, Option.bind_some] at hr ⊢
    by_cases hmeets : up.meets g.vars = true
    · rw [if_pos hmeets] at hr ⊢
      exact recounted_groupEvents hb hd hm g hr
    · rw [if_neg hmeets]
      exact fun _ _ => trivial

theorem markersEvents_append : ∀ (ns ns' : List (NodeId × String)) (v : View),
    markersEvents kind shows told under (ns ++ ns') v = markersEvents kind shows told under ns v ++
      markersEvents kind shows told under ns' (ns.foldl (markerStep kind shows under) v)
  | [], _, _ => rfl
  | n :: ns, ns', v => by
    rw [List.cons_append, markersEvents, markersEvents, markersEvents_append ns ns', List.append_assoc,
      List.foldl_cons]

/-- The markers below a node have their turns.  When its turn comes a marker has the instances that it
had at first, as those before it have left them alone. -/
theorem recounted_markers (kind : DirectiveKind) (under : NodeId) (hd : v.document.WellFormed)
    (hreplaces : ShowsByReplacing shows told) (hfills : ShowsByFilling shows)
    (hextends : ShowsExtending shows)
    (hr : ((v.document.comments under).foldl (markerStep kind shows under) v).records.Extends r)
    (htold : ∀ (id p : NodeId) (name text : String) (w : View), w.document.WellFormed →
      w.document.Under id p → ((shows id name w).getD w).records.Extends r →
        w.document.data id = .comment text → Marker.ofComment? text = some ⟨kind, name⟩ →
          w.document.instances id = v.document.instances id →
            Recounted o r w.document (told id name w)) :
    Recounted o r v.document
      (markersEvents kind shows told under (v.document.comments under) v) := by
  intro hlen hsettled
  suffices h : ∀ ns done, v.document.comments under = done ++ ns →
      Recounted o r (done.foldl (markerStep kind shows under) v).document
        (markersEvents kind shows told under ns (done.foldl (markerStep kind shows under) v)) from
    h _ [] rfl hlen hsettled
  intro ns
  induction ns with
  | nil => exact fun _ _ _ _ => trivial
  | cons n ns ih =>
    intro done hlist
    have hdone := confinedBy_markers kind under hreplaces done hd
    have hnext := ih (done ++ [n]) (by rw [hlist, List.append_assoc, List.singleton_append])
    rw [hlist, List.foldl_append, List.foldl_cons] at hr
    rw [List.foldl_append, List.foldl_cons, List.foldl_nil] at hnext
    have hmem : n ∈ v.document.comments under := by
      rw [hlist]
      exact List.mem_append_right done List.mem_cons_self
    have hfirst : n.1 ∈ Stays v.document (operations (markersEvents kind shows told under done v)) ∨
        ¬ (done.foldl (markerStep kind shows under) v).document.Live n.1 := by
      by_cases hlive : (done.foldl (markerStep kind shows under) v).document.Live n.1
      · refine .inl (mem_stays_of_live hd hdone.legal (live_of_mem_comments hd hmem).2 ?_ ?_)
        · rwa [hdone.run_eq]
        · rw [hlist, markersEvents_append, operations_append, List.length_append] at hlen
          omega
      · exact .inr hlive
    have hother : ∀ n' ∈ done, n'.1 ≠ n.1 := fun n' hn' => by
      have hpairs := comments_pairwise hd (live_of_mem_comments hd hmem).1
      rw [hlist, List.pairwise_append] at hpairs
      exact hpairs.2.2 n' hn' n List.mem_cons_self
    have hbegin : n.1 ∈ Stays v.document (operations (markersEvents kind shows told under done v)) →
        Remains n.1 v.document (done.foldl (markerStep kind shows under) v).document :=
      remains_markers hreplaces hfills done hd hother
    generalize done.foldl (markerStep kind shows under) v = w at *
    have hstep := confinedBy_markerStep kind under hreplaces hdone.wellFormed n
    have hrest := (extends_markers kind hextends under ns (markerStep kind shows under w n)).trans hr
    rw [markersEvents]
    refine Recounted.append ?_ hdone.wellFormed hstep.legal (by rwa [hstep.run_eq])
    rcases turn_cases kind shows told under w n with
      ⟨-, he⟩ | ⟨marker, hmarker, rfl, hbelow, heq, he⟩ <;> rw [he]
    · exact fun _ _ => trivial
    · rw [hdone.wellFormed.isDescendant_iff] at hbelow
      obtain ⟨q, hq, -⟩ := TransGen.head'_iff.mp hbelow
      rw [heq] at hrest
      have hremains := hbegin (hfirst.resolve_right fun hnot => hnot hq.live)
      refine htold n.1 q marker.name n.2 w hdone.wellFormed hq hrest ?_ hmarker hremains.instances_eq
      rw [hremains.keeps.data_eq (hd.closed_above (live_of_mem_comments hd hmem).2) .refl]
      exact data_of_mem_comments hmem

theorem loop_mem_loopTeller (build : Build) (tells : Telling) (o : ViewOptions) (scope : Scope)
    (start : Document) (id : NodeId) {name : String} {l : LoopDefinition}
    (hl : v.records.loop? name = some l) (hmeets : up.meets l.vars = true) :
    .loop ⟨id, l, scope, start⟩ ∈ loopTeller build tells o scope up start id name v := by
  unfold loopTeller
  simp only [hl, hmeets, if_true]
  rcases (⟨id, l, scope, start⟩ : Turn).items? o with _ | items
  · exact List.mem_singleton_self _
  · simp [loopEvents]

/-- Every marker of a loop that is there when its turn comes has a turn, if the update concerns it. -/
theorem loop_mem_showEvents (tells : Telling) {n : NodeId × String} {before after : List (NodeId × String)}
    {name : String} {l : LoopDefinition} {v1 w : View}
    (hv1 : v1 = (v.showGroups build o scope up under).2)
    (hlist : v1.document.comments under = before ++ n :: after)
    (hw : w = before.foldl (markerStep .loop (loopShower build o scope up) under) v1)
    (hmarker : Marker.ofComment? n.2 = some ⟨.loop, name⟩)
    (hbelow : w.document.isDescendant under n.1 = true) (hl : w.records.loop? name = some l)
    (hmeets : up.meets l.vars = true) :
    .loop ⟨n.1, l, scope, v1.document⟩ ∈ showEvents build tells o scope up under v := by
  unfold showEvents
  dsimp only
  rw [← hv1, hlist, markersEvents_append, ← hw, markersEvents, markerEvents, hmarker]
  have hturn := loop_mem_loopTeller build tells o scope v1.document n.1 hl hmeets
  simp [hbelow, hturn]

/-! ## Passes -/

theorem faithful_textsEvents (o : ViewOptions) (r : Records) (scope : Scope) (up : Update) :
    ∀ (xs : List NodeId) {d : Document}, d.WellFormed → Faithful o r d (textsEvents o scope up xs d)
  | [], _, _ => trivial
  | x :: xs, d, hd => by
    rw [textsEvents]
    rcases hd.showText_cases o scope up x with ⟨heq, he⟩ | ⟨text, html, hx, -, -, heq, he⟩ <;>
      rw [heq, he]
    · exact faithful_textsEvents o r scope up xs hd
    · exact ⟨hx, by rintro _ ⟨⟩, faithful_textsEvents o r scope up xs
        (hd.confined_setInnerHtml hx html).wellFormed⟩

theorem faithful_elementEvents (o : ViewOptions) (r : Records) {f : Element → Element}
    (hf : ∀ e, (f e).tag = e.tag) :
    ∀ (xs : List NodeId) (d : Document), Faithful o r d (elementEvents f xs)
  | [], _ => trivial
  | x :: xs, d => by
    refine ⟨fun data => ?_, by rintro _ ⟨⟩, faithful_elementEvents o r hf xs _⟩
    rcases data with _ | _ | e | _ | _ | _ <;> simp [NodeData.mapElement, NodeData.look, hf]

theorem recounted_showEvents (hb : BuildsAsTold o r build tells) (hd : v.document.WellFormed)
    (hu : v.document.Live under) (hr : (v.showWith build o scope up under).2.records.Extends r) :
    Recounted o r v.document (showEvents build tells o scope up under v) := by
  have hgroups := showsByReplacing_group o scope up hb.aside
  have hx := showsExtending_loop o scope up hb.extending
  unfold showEvents
  rw [showWith_snd] at hr
  dsimp only at hr ⊢
  have hc1 := confinedBy_markers .condition under hgroups (v.document.comments under) hd
  have h1 := fun hr => recounted_markers .condition under hd hgroups
    (showsByFilling_group o scope up hb.stocked) (showsExtending_group o scope up hb.extending) hr
    fun id p name text w hd hm hr _ _ _ => recounted_groupTeller hb hd hm hr
  rw [← showGroups_snd] at hc1 h1
  generalize (v.showGroups build o scope up under).2 = v1 at hr hc1 h1 ⊢
  have hloops := showsByReplacing_loop o scope up v1.document hb.aside
  have hc2 := confinedBy_markers .loop under hloops (v1.document.comments under) hc1.wellFormed
  have h2 := fun hr => recounted_markers .loop under hc1.wellFormed hloops
    (showsByFilling_loop o scope up hb.stocked hb.extending) hx hr
    fun id p name text w hd hm hr hdata hmarker hsame =>
      recounted_loopTeller hb v1.document hd hm hr hdata hmarker hsame
  have hr1 := extends_markers .loop hx under (v1.document.comments under) v1
  rw [← showLoops_snd] at hc2 h2 hr1
  generalize (v1.showLoops build o scope up under).2 = v2 at hr hc2 h2 hr1 ⊢
  have hu2 : v2.document.Live under :=
    (hc1.append hc2 hd).keeps.live ⟨hu, hd.acyclic under⟩ hu
  have hc3 := hc2.wellFormed.confinedBy_showTexts o scope up hu2
  refine (h1 (hr1.trans hr)).append hd hc1.legal ?_
  rw [hc1.run_eq]
  refine (h2 hr).append hc1.wellFormed hc2.legal fun _ _ => ?_
  rw [hc2.run_eq]
  refine (faithful_textsEvents o r scope up _ hc2.wellFormed).append ?_
  rw [hc3.run_eq]
  exact faithful_elementEvents o r (tag_newAttributes o scope up) _ _

theorem faithful_newFragmentEvents (o : ViewOptions) (r : Records) (html : List Char) (v : View) :
    Faithful o r v.document (newFragmentEvents o html v) := by
  refine ⟨trivial, by rintro _ ⟨⟩, ?_⟩
  split
  · refine faithful_elementEvents o r (fun e => ?_) _ _
    exact Element.completeHandlers_induction (P := fun e' => e'.tag = e.tag) rfl fun _ _ _ _ h => h
  · trivial

/-- All fragments are made as it is told. -/
theorem buildsAsTold_build (o : ViewOptions) (r : Records) :
    ∀ fuel, BuildsAsTold o r (View.build o fuel) (buildEvents o fuel)
  | 0 => by
    refine ⟨buildsAside_build o 0, buildsStocked_build o 0, buildsExtending_build o 0,
      fun scope html v _ _ _ _ => ?_⟩
    rw [buildEvents]
    exact (faithful_newFragmentEvents o r html v).append (b := [.cut]) trivial
  | fuel + 1 => by
    refine ⟨buildsAside_build o _, buildsStocked_build o _, buildsExtending_build o _,
      fun scope html v hd hr => ?_⟩
    have hnew := asideBy_newFragment o html hd
    rw [build_succ] at hr
    dsimp only at hr
    simp only [buildEvents]
    refine Recounted.append (fun _ _ => faithful_newFragmentEvents o r html v) hd hnew.legal ?_
    rw [hnew.run_eq]
    exact recounted_showEvents (buildsAsTold_build o r fuel) hnew.wellFormed hnew.toAside.live hr

theorem recounted_trace (o : ViewOptions) (scope : Scope) (up : Update) (hd : v.document.WellFormed)
    (hu : v.document.Live under) :
    Recounted o (v.showUnder o scope up under).2.records v.document (v.trace o scope up under) := by
  rw [showUnder, trace]
  by_cases hempty : up.isEmpty = true
  · rw [if_pos hempty, if_pos hempty]
    exact fun _ _ => trivial
  · rw [if_neg hempty, if_neg hempty]
    generalize v.records.size + 1 + o.depth = fuel
    exact recounted_showEvents (buildsAsTold_build o _ fuel) hd hu (.refl _)

/-- A pass leaves owners settled for the operations that come after it. -/
theorem ownersSettled_showUnder (o : ViewOptions) (scope : Scope) (up : Update) (hd : v.document.WellFormed)
    (hu : v.document.Live under) {n : Nat}
    (howners : v.document.OwnersSettled ((operations (v.trace o scope up under)).length + n))
    (hlen : (operations (v.trace o scope up under)).length + n < generations) :
    (v.showUnder o scope up under).2.document.OwnersSettled n := by
  have hfaithful := recounted_trace o scope up hd hu (by omega) (howners.mono (Nat.le_add_right ..))
  obtain ⟨hlegal, hrun⟩ := run_operations_trace o scope up under v hd hu
  rw [← hrun]
  exact hfaithful.allOrderly.ownersSettled hd hlegal howners hlen

/-- The last turn of a marker. -/
def LastTurn (es : List Event) (t : Turn) : Prop :=
  ∃ before after, es = before ++ .loop t :: after ∧ ∀ e ∈ after, e.marker? ≠ some t.marker

/-- What a loop has shown at its last turn is there in the end if its marker is. -/
theorem Faithful.shown {t : Turn} (h : Faithful o r d es) (hd : d.WellFormed)
    (hlegal : AllLegal d (operations es)) (hlen : (operations es).length < generations)
    (hlast : LastTurn es t) (hlive : (run d (operations es)).Live t.marker) :
    t.Shown o r (run d (operations es)) := by
  obtain ⟨before, after, rfl, hlast⟩ := hlast
  rw [operations_append, operations_loop] at hlegal hlive hlen ⊢
  rw [run_append] at hlive ⊢
  obtain ⟨hbefore, hafter⟩ := allLegal_append.mp hlegal
  obtain ⟨⟨hmarker, hshown⟩, hrest⟩ := h.right
  have hd' := (hbefore.sane hd).1
  have hstays : t.marker ∈ Stays (run d (operations before)) (operations after) :=
    mem_stays_of_live hd' hafter hmarker hlive (by rw [List.length_append] at hlen; omega)
  exact hshown.of_sameInstances
    (hrest.allOrderly.sameInstances hd' hafter hstays (hrest.marker?_ne hlast))

/-- After a pass each loop that has had a turn, and whose marker is there, shows one instance for each
item of its array, whatever was there before; or what was there before if the value of the array is
none.  If it has had several turns, the last of them counts. -/
theorem showUnder_instances (o : ViewOptions) (scope : Scope) (up : Update) (under : NodeId) (v : View)
    (hd : v.document.WellFormed) (hu : v.document.Live under)
    (howners : v.document.OwnersSettled (operations (v.trace o scope up under)).length)
    (hlen : (operations (v.trace o scope up under)).length < generations) {t : Turn}
    (hlast : LastTurn (v.trace o scope up under) t)
    (hlive : (v.showUnder o scope up under).2.document.Live t.marker) :
    t.Shown o (v.showUnder o scope up under).2.records (v.showUnder o scope up under).2.document := by
  have hfaithful := recounted_trace o scope up hd hu hlen howners
  obtain ⟨hlegal, hrun⟩ := run_operations_trace o scope up under v hd hu
  rw [← hrun] at hlive ⊢
  exact hfaithful.shown hd hlegal hlen hlast hlive

/-- A list for each array in an array. -/
def nestedLists : Template where
  html := "<!-- loop:page_loop_0 -->"
  conditions := []
  loops := [⟨"page_loop_1", "x", "y", "<li pado-text=\"\x7by\x7d\"></li>"⟩,
    ⟨"page_loop_0", "xs", "x", "<ul><!-- loop:page_loop_1 --></ul>"⟩]

/-- The view of the lists in a document of its own. -/
def nestedView : View :=
  ofTemplate nestedLists (parse nestedLists.html.toList)

/-- A state with one list of two items. -/
def oneList : Scope :=
  .ofBindings [("xs", .array [.array [.string "a", .string "b"]])]

/-- The loop in the first list. -/
def innerLoop : LoopDefinition :=
  ⟨"page_loop_1@page_loop_0[0]", "xs[0]", "y", "<li pado-text=\"\x7by\x7d\"></li>"⟩

/-- The marker of an event, and of the turn of a loop the loop and how many items it has. -/
def Event.summary? (o : ViewOptions) : Event → Option (NodeId × Option (LoopDefinition × Option Nat))
  | .group marker => some (marker, none)
  | .loop t => some (t.marker, some (t.loop, (t.items? o).map List.length))
  | .operation _ | .cut => none

theorem Event.marker?_eq (o : ViewOptions) (e : Event) : e.marker? = (e.summary? o).map Prod.fst := by
  cases e <;> rfl

theorem document_nestedView : nestedView.document = parse nestedLists.html.toList := by
  rw [nestedView, ofTemplate]

/-- The marker in the list is made in the pass, has its turn, and comes into the document with the
list. -/
theorem showUnder_instances_nestedView :
    nestedView.document.WellFormed ∧ nestedView.document.Live root ∧
    nestedView.document.OwnersSettled (operations (nestedView.trace {} oneList .all root)).length ∧
    (operations (nestedView.trace {} oneList .all root)).length < generations ∧
    (∃ t, LastTurn (nestedView.trace {} oneList .all root) t ∧ t.marker = ⟨5, 0⟩ ∧ t.loop = innerLoop) ∧
    (nestedView.showUnder {} oneList .all root).2.document.Live ⟨5, 0⟩ ∧
    (nestedView.showUnder {} oneList .all root).2.document.looks
        ((nestedView.showUnder {} oneList .all root).2.document.instances ⟨5, 0⟩) =
      [.element { tag := "li" }, .element { tag := "li" }] := by
  have hlength : (operations (nestedView.trace {} oneList .all root)).length = 26 := by decide +kernel
  have hlen : (operations (nestedView.trace {} oneList .all root)).length < generations := by
    rw [hlength]
    decide
  have hd : nestedView.document.WellFormed := by
    rw [document_nestedView]
    exact wellFormed_parse _
  have hu : nestedView.document.Live root := live_of_contains (by decide +kernel) (by decide +kernel)
  have howners : nestedView.document.OwnersSettled
      (operations (nestedView.trace {} oneList .all root)).length := by
    rw [document_nestedView]
    exact ownersSettled_parse _ _
  have hlive : (nestedView.showUnder {} oneList .all root).2.document.Live ⟨5, 0⟩ :=
    live_of_contains (by decide +kernel) (by decide +kernel)
  have hbodies : (List.range 2).flatMap (fun i => topLooks
      ((nestedView.showUnder {} oneList .all root).2.records.body
        ({} : ViewOptions).depth innerLoop i).1) =
          [.element { tag := "li" }, .element { tag := "li" }] := by decide +kernel
  have hsummary : (nestedView.trace {} oneList .all root).filterMap (Event.summary? {}) =
      [(⟨5, 0⟩, some (innerLoop, some 2)),
        (⟨1, 0⟩, some (⟨"page_loop_0", "xs", "x", "<ul><!-- loop:page_loop_1 --></ul>"⟩, some 1))] := by
    decide +kernel
  have hinstances := @showUnder_instances {} oneList .all root nestedView hd hu howners hlen
  generalize nestedView.showUnder {} oneList .all root = shown at hlive hbodies hinstances ⊢
  generalize nestedView.trace {} oneList .all root = es at hlen howners hsummary hinstances ⊢
  obtain ⟨before, e, after, htrace, -, he, hafter⟩ := List.filterMap_eq_cons_iff.mp hsummary
  cases e with
  | loop t =>
    obtain ⟨hmarker, h⟩ := Prod.mk.inj (Option.some.inj he)
    obtain ⟨hloop, hitems⟩ := Prod.mk.inj (Option.some.inj h)
    obtain ⟨items, hitems, hn⟩ := Option.map_eq_some_iff.mp hitems
    have hlast : LastTurn es t := by
      refine ⟨before, after, htrace, fun e he hm => ?_⟩
      rw [hmarker, e.marker?_eq {}] at hm
      obtain ⟨s, hs, h5⟩ := Option.map_eq_some_iff.mp hm
      have hmem := List.mem_filterMap.mpr ⟨e, he, hs⟩
      rw [hafter, List.mem_singleton] at hmem
      rw [hmem] at h5
      cases h5
    have hlooks := (hinstances hlast (hmarker.symm ▸ hlive)).items items hitems
    rw [hmarker, hloop, hn] at hlooks
    exact ⟨hd, hu, howners, hlen, ⟨t, hlast, hmarker, hloop⟩, hlive, hlooks.trans hbodies⟩
  | _ => cases he

end View

end LiveMarkup
