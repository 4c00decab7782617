import LiveMarkup.Proofs.Page.Handlers
import LiveMarkup.Proofs.Page.Spared

/-!
# The mark of a started document stays

A pass takes off the mark of a document only where the marked element goes: with a text that is shown
around it, or with the marker that owns it or a node above it.  If nothing of the kind stands above it
(`Document.Secure`), the mark stays whatever is shown (`Document.Bears.render`).  To start a document
sets the mark (`Document.bears_start`).
-/

namespace LiveMarkup

open Relation Text

namespace Element

variable {names : List String} {e e' : Element} {u : Update} {t name : String}

theorem lookup_filter_not_mem {α : Type} (h : name ∉ names) : ∀ xs : List (String × α),
    (xs.filter (·.1 ∉ names)).lookup name = xs.lookup name
  | [] => rfl
  | (k, v) :: xs => by
    by_cases hk : k ∈ names
    · have hne : name ≠ k := fun heq => h (heq ▸ hk)
      rw [List.filter_cons_of_neg (by simpa using hk), List.lookup_cons, beq_eq_false_iff_ne.mpr hne,
        lookup_filter_not_mem h xs]
    · rw [List.filter_cons_of_pos (by simpa using hk), List.lookup_cons, List.lookup_cons,
        lookup_filter_not_mem h xs]

theorem AgreesBut.attribute?_eq (h : e.AgreesBut names e') (hname : name ∉ names) :
    e'.attribute? name = e.attribute? name := by
  unfold attribute?
  rw [← lookup_filter_not_mem hname, h.attributes, lookup_filter_not_mem hname]

/-- Bindings of an element without bindings of bindings are for attributes that bind nothing. -/
theorem Plain.not_startsWith_of_concerned (hp : e.Plain) (ht : t ∈ e.concernedTargets u) :
    startsWith bindingStart t.toList = false := by
  obtain ⟨⟨name, source⟩, hmem, hb⟩ := List.mem_filterMap.mp ht
  refine hp.not_startsWith_target (List.mem_map.mpr ⟨(t, source), mem_bindings.mpr ⟨name, hmem, ?_⟩, rfl⟩)
  exact (Option.filter_eq_some_iff.mp hb).1

theorem Plain.not_mem_concerned (hp : e.Plain) (hname : startsWith bindingStart name.toList = true) :
    name ∉ e.concernedTargets u := fun hmem => by
  rw [hp.not_startsWith_of_concerned hmem] at hname
  cases hname

/-- Showing bindings makes no attribute that binds a binding. -/
theorem Plain.agreesBut (hp : e.Plain) (h : e.AgreesBut (e.concernedTargets u) e') : e'.Plain := by
  intro name hname
  by_cases hmem : name ∈ e.concernedTargets u
  · have hnot := hp.not_startsWith_of_concerned hmem
    rw [← Bool.not_eq_true, startsWith_iff] at hnot ⊢
    rintro ⟨rest, hrest⟩
    exact hnot ⟨bindingStart ++ rest, hrest⟩
  · obtain ⟨⟨n, w⟩, hin, rfl⟩ := List.mem_map.mp hname
    have hkept : (n, w) ∈ e'.attributes.filter (·.1 ∉ e.concernedTargets u) :=
      List.mem_filter.mpr ⟨hin, by simpa using hmem⟩
    rw [h.attributes] at hkept
    exact hp n (List.mem_map_of_mem (List.mem_of_mem_filter hkept))

end Element

namespace Document

variable {d d' d'' : Document} {m x c : NodeId} {f : Slot → Slot} {A : Set NodeId}

/-- A node and the nodes above it have no owners and no attributes that bind bindings, and no text is
shown around the node. -/
structure Secure (d : Document) (m : NodeId) : Prop where
  unowned : ∀ x, ReflTransGen d.Under m x → d.owner? x = none
  plain : ∀ x e, ReflTransGen d.Under m x → d.data x = .element e → e.Plain
  unbound : ∀ x, TransGen d.Under m x → (d.data x).boundText? = none

/-- What stands above a node may change as far as it stays where it is. -/
structure KeepsAbove (m : NodeId) (d d' : Document) : Prop where
  under : ∀ x p, ReflTransGen d.Under m x → (d'.Under x p ↔ d.Under x p)
  owner : ∀ x, ReflTransGen d.Under m x → d'.owner? x = d.owner? x
  data : ∀ x e', ReflTransGen d.Under m x → d'.data x = .element e' → ∃ e, d.data x = .element e ∧
    (e.Plain → e'.Plain ∧
      e'.attribute? (String.ofList textBinding) = e.attribute? (String.ofList textBinding))

namespace KeepsAbove

variable (h : KeepsAbove m d d')
include h

theorem above_iff : ReflTransGen d'.Under m x ↔ ReflTransGen d.Under m x := by
  constructor
  · intro hx
    induction hx with
    | refl => exact .refl
    | tail _ hyz ih => exact ih.tail ((h.under _ _ ih).mp hyz)
  · intro hx
    induction hx with
    | refl => exact .refl
    | tail hxy hyz ih => exact ih.tail ((h.under _ _ hxy).mpr hyz)

theorem strictlyAbove_iff : TransGen d'.Under m x ↔ TransGen d.Under m x := by
  rw [TransGen.tail'_iff, TransGen.tail'_iff]
  refine exists_congr fun y => ?_
  rw [h.above_iff]
  exact and_congr_right fun hy => h.under y x hy

theorem secure (hs : d.Secure m) : d'.Secure m where
  unowned x hx := by
    rw [h.above_iff] at hx
    rw [h.owner x hx, hs.unowned x hx]
  plain x e' hx he' := by
    rw [h.above_iff] at hx
    obtain ⟨e, he, hplain⟩ := h.data x e' hx he'
    exact (hplain (hs.plain x e hx he)).1
  unbound x hx := by
    rw [h.strictlyAbove_iff] at hx
    have hnone := hs.unbound x hx
    cases hdata : d'.data x with
    | element e' =>
      obtain ⟨e, he, hplain⟩ := h.data x e' hx.to_reflTransGen hdata
      rw [he] at hnone
      exact (hplain (hs.plain x e hx.to_reflTransGen he)).2.trans hnone
    | _ => rfl

end KeepsAbove

/-- A marked element stands below the root where nothing takes it away. -/
structure Bears (d : Document) (m : NodeId) : Prop extends Secure d m where
  wellFormed : d.WellFormed
  precede : d.OwnersPrecede
  attached : TransGen d.Under m root
  marked : ∃ e, d.data m = .element e ∧ e.hasAttribute startedMark = true

theorem Bears.isStarted (h : d.Bears m) : d.isStarted = true := by
  obtain ⟨s, hs, -⟩ := h.wellFormed.rooted
  obtain ⟨e, he, hmark⟩ := h.marked
  have hmem : m ∈ d.withAttribute root startedMark := by
    rw [withAttribute, List.mem_filter, h.wellFormed.mem_descendants_iff hs.live]
    exact ⟨h.attached, by rw [element?, he]; exact hmark⟩
  rw [Document.isStarted, findAttribute?, List.isSome_head?]
  exact List.ne_nil_of_mem hmem

/-! ## Showing a state -/

/-- Nothing that a pass touches stands above a secure node. -/
theorem Secure.spared (hs : d.Secure m) (hd : d.WellFormed) (hm : TransGen d.Under m root) (u : Update)
    (r : Records) (hx : ReflTransGen d.Under m x) : x ∈ d.spared u r := by
  refine (hd.closed_spared u r).above ⟨hd.isAttached_iff.mpr hm.to_reflTransGen, ?_⟩ hx
  rintro (⟨w, -, y, hmy, hyw⟩ | ⟨e, he, hme⟩)
  · obtain ⟨z, hyz, -⟩ := TransGen.head'_iff.mp hyw
    have howner := hyz.1
    rw [hs.unowned y hmy] at howner
    cases howner
  · rw [Update.meetsTextOf, hs.unbound e hme] at he
    cases he

/-- Nodes that are kept but for what their bindings set keep what stands above them. -/
theorem KeepsBut.keepsAbove {u : Update} (h : KeepsBut u A d d') (hd : d.WellFormed) (hm : d.Live m)
    (hA : ∀ x, ReflTransGen d.Under m x → x ∈ A) : KeepsAbove m d d' := by
  have hkept : ∀ {x}, ReflTransGen d.Under m x → ∃ s s', d.Holds x s ∧ d'.Holds x s' ∧
      s.data.AgreesBut u s'.data ∧ s'.parent = s.parent ∧ s'.owner = s.owner := fun {x} hx => by
    obtain ⟨s, hs⟩ := hd.closed_live.above hm hx
    obtain ⟨s', hs', hdata, hparent, howner, -⟩ := h x (hA x hx) s hs
    exact ⟨s, s', hs, hs', hdata, hparent, howner⟩
  constructor
  · intro x p hx
    obtain ⟨s, s', hs, hs', -, hparent, -⟩ := hkept hx
    rw [hs.under_iff, hs'.under_iff, hparent]
  · intro x hx
    obtain ⟨s, s', hs, hs', -, -, howner⟩ := hkept hx
    rw [hs.owner?_eq, hs'.owner?_eq, howner]
  · intro x e' hx he'
    obtain ⟨s, s', hs, hs', hdata, -, -⟩ := hkept hx
    rw [hs'.data_eq] at he'
    rw [hs.data_eq]
    rw [he'] at hdata
    cases hsd : s.data with
    | element e =>
      rw [hsd] at hdata
      exact ⟨e, rfl, fun hp => ⟨hp.agreesBut hdata, hdata.attribute?_eq (hp.not_mem_concerned (by decide))⟩⟩
    | _ => rw [hsd] at hdata; cases hdata

/-- A marked element that is secure stays marked when a state is shown. -/
theorem Bears.render {v : View} (hb : v.document.Bears m) (o : ViewOptions) (scope : Scope)
    (u : Update) : (v.render o scope u).2.document.Bears m := by
  have hlive := live_of_below hb.attached
  obtain ⟨hbut, hspared⟩ := View.render_spares o scope u v hb.wellFormed
  have hprecede := View.ownersPrecede_render o scope u hb.wellFormed hb.precede
  have hstays : ∀ x, ReflTransGen v.document.Under m x →
      x ∈ Stays v.document (View.operations (v.trace o scope u root)) := fun x hx =>
    (hspared (hb.precede.ownersSettled hb.wellFormed _) x
      (hb.spared hb.wellFormed hb.attached u _ hx)).1
  have hkeeps := hbut.keepsAbove hb.wellFormed hlive hstays
  have hconfined := View.confinedBy_render o scope u hb.wellFormed
  refine ⟨hkeeps.secure hb.toSecure, hconfined.wellFormed, hprecede,
    hkeeps.strictlyAbove_iff.mpr hb.attached, ?_⟩
  obtain ⟨e, he, hmark⟩ := hb.marked
  obtain ⟨s, hs⟩ := hlive
  obtain ⟨s', hs', hdata, -⟩ := hbut m (hstays m .refl) s hs
  rw [hs.data_eq] at he
  rw [he] at hdata
  rw [hs'.data_eq]
  cases hsd : s'.data with
  | element e' =>
    rw [hsd] at hdata
    have hstart : startsWith bindingStart startedMark.toList = true := by decide
    have hnot := (hb.plain m e .refl (hs.data_eq.trans he)).not_mem_concerned (u := u) hstart
    exact ⟨e', rfl, by rw [Element.hasAttribute, hdata.attribute?_eq hnot]; exact hmark⟩
  | _ => rw [hsd] at hdata; cases hdata

/-! ## Starting -/

/-- Documents with the same nodes in the same places, of the same tags. -/
structure Twins (d d' : Document) : Prop where
  capacity : d'.capacity = d.capacity
  children : ∀ x, d'.children x = d.children x
  tag : ∀ x, (d'.element? x).map Element.tag = (d.element? x).map Element.tag

namespace Twins

theorem refl (d : Document) : Twins d d :=
  ⟨rfl, fun _ => rfl, fun _ => rfl⟩

theorem trans (h : Twins d d') (h' : Twins d' d'') : Twins d d'' :=
  ⟨h'.capacity.trans h.capacity, fun x => (h'.children x).trans (h.children x),
    fun x => (h'.tag x).trans (h.tag x)⟩

theorem updateElement (d : Document) (c : NodeId) {change : Element → Element}
    (hchange : ∀ e, (change e).tag = e.tag) : Twins d (d.updateElement c change) := by
  rw [updateElement_eq]
  have hslot := slot?_update (d := d) (c := c)
    (f := fun s => { s with data := s.data.mapElement change }) fun _ => rfl
  refine ⟨?_, fun x => ?_, fun x => ?_⟩
  · unfold Document.capacity update
    split
    · exact Array.size_modify
    · rfl
  · rw [Document.children, Document.children, hslot, Option.map_map]
    congr 2
    funext s
    dsimp only [Function.comp]
    split <;> rfl
  · rw [element?, element?, data, data, hslot]
    rcases d.slot? x with _ | s
    · rfl
    · dsimp only [Option.map_some, Option.getD_some]
      split
      · cases s.data with
        | element e => exact congrArg some (hchange e)
        | _ => rfl
      · rfl

theorem updateElements {change : Element → Element} (hchange : ∀ e, (change e).tag = e.tag) :
    ∀ (xs : List NodeId) (d : Document), Twins d (xs.foldl (fun d n => d.updateElement n change) d)
  | [], d => refl d
  | x :: xs, d => (updateElement d x hchange).trans (updateElements hchange xs _)

variable (h : Twins d d')
include h

theorem descendants_eq (x : NodeId) : d'.descendants x = d.descendants x := by
  have hto : ∀ fuel x, d'.descendantsTo fuel x = d.descendantsTo fuel x := by
    intro fuel
    induction fuel with
    | zero => exact fun _ => rfl
    | succ fuel ih =>
      intro x
      rw [descendantsTo, descendantsTo, h.children]
      simp only [ih]
  rw [descendants, descendants, h.capacity, hto]

/-- The same node is to be marked. -/
theorem markedElement?_eq : d'.markedElement? = d.markedElement? := by
  have helement : ∀ x, (d'.element? x).isSome = (d.element? x).isSome := fun x => by
    rw [← Option.isSome_map (f := Element.tag), h.tag, Option.isSome_map]
  have htag : ∀ x tag, (d'.element? x).any (fun e => e.tag = tag) =
      (d.element? x).any fun e => e.tag = tag := fun x tag => by
    have hany : ∀ o : Option Element, o.any (fun e => e.tag = tag) = (o.map Element.tag).any (· = tag) :=
      fun o => by cases o <;> rfl
    rw [hany, hany, h.tag]
  unfold markedElement? findTag? elements
  simp only [h.descendants_eq, helement, htag]

end Twins

theorem isSome_element?_of_markedElement? (h : d.markedElement? = some m) :
    (d.element? m).isSome = true := by
  rcases Option.or_eq_some_iff.mp h with h | ⟨-, h⟩
  · have hany := List.find?_some h
    cases he : d.element? m with
    | some _ => rfl
    | none => rw [he] at hany; cases hany
  · exact (List.mem_filter.mp (List.mem_of_head? h)).2

/-- Harmless changes of elements keep what stands above a node. -/
theorem WellFormed.keepsAbove_updateElements (hd : d.WellFormed) {change : Element → Element}
    (hchange : Element.Harmless change) {xs : List NodeId} (hnd : xs.Nodup)
    (hlive : ∀ x ∈ xs, d.Live x) (hm : d.Live m) :
    KeepsAbove m d (xs.foldl (fun d n => d.updateElement n change) d) := by
  have hr := hd.rewrites_updateElements change xs hnd hlive
  have hheld : ∀ {x}, ReflTransGen d.Under m x → ∃ s, d.Holds x s ∧
      (xs.foldl (fun d n => d.updateElement n change) d).Holds x
        (if x ∈ xs then { s with data := s.data.mapElement change } else s) := fun {x} hx => by
    obtain ⟨s, hs⟩ := hd.closed_live.above hm hx
    exact ⟨s, hs, hr.holds_of hs⟩
  refine ⟨fun x p hx => ?_, fun x hx => ?_, fun x e' hx he' => ?_⟩ <;> obtain ⟨s, hs, hs'⟩ := hheld hx
  · rw [hs.under_iff, hs'.under_iff]
    split <;> rfl
  · rw [hs.owner?_eq, hs'.owner?_eq]
    split <;> rfl
  · rw [hs'.data_eq] at he'
    rw [hs.data_eq]
    split at he'
    · cases hsd : s.data with
      | element e =>
        rw [hsd] at he'
        cases he'
        exact ⟨e, rfl, fun hp => ⟨hchange.plain hp, hchange.text e⟩⟩
      | _ => rw [hsd] at he'; cases he'
    · exact ⟨e', he', fun hp => ⟨hp, rfl⟩⟩

/-- To start a document marks an element, for good if that is secure. -/
theorem WellFormed.bears_start (hd : d.WellFormed) (hprec : d.OwnersPrecede)
    (hm : d.markedElement? = some m) (hs : d.Secure m) : d.start.Bears m := by
  obtain ⟨r, hr, -⟩ := hd.rooted
  have hbelow := (hd.mem_descendants_iff hr.live).mp (mem_elements_of_markedElement? hm)
  have htag : ∀ e : Element, e.completeHandlers.tag = e.tag := fun e =>
    Element.completeHandlers_induction (P := fun e' => e'.tag = e.tag) rfl fun _ _ _ _ h => h
  have hm1 := (Twins.updateElements htag (d.elements root) d).markedElement?_eq.trans hm
  have hsome := isSome_element?_of_markedElement? hm1
  have hkept := hd.keepsAbove_updateElements Element.harmless_completeHandlers
    (hd.nodup_elements hr.live) (fun x => hd.live_of_mem_elements hr.live)
    (live_of_below hbelow)
  have hprec1 := hprec.updateElements hd Element.completeHandlers (d.elements root)
  have hd1 := hd.wellFormed_updateElements Element.completeHandlers (d.elements root)
  rw [start, completeHandlers, markStarted]
  generalize (d.elements root).foldl (fun d n => d.updateElement n Element.completeHandlers) d = d1
    at hm1 hsome hkept hprec1 hd1 ⊢
  rw [hm1]
  show (d1.updateElement m Element.mark).Bears m
  have hbelow1 := hkept.strictlyAbove_iff.mpr hbelow
  have hlive1 := live_of_below hbelow1
  have hmarked := hd1.keepsAbove_updateElements Element.harmless_mark (List.nodup_singleton m)
    (by simpa using hlive1) hlive1
  rw [List.foldl_cons, List.foldl_nil] at hmarked
  refine ⟨hmarked.secure (hkept.secure hs), hd1.wellFormed_updateElement m Element.mark,
    hprec1.updateElement hd1 m Element.mark, hmarked.strictlyAbove_iff.mpr hbelow1, ?_⟩
  obtain ⟨s, hs⟩ := hlive1
  obtain ⟨e, he⟩ := Option.isSome_iff_exists.mp hsome
  rw [element?, hs.data_eq] at he
  refine ⟨e.mark, ?_, ?_⟩
  · rw [updateElement_eq,
      (hs.update (f := fun s => { s with data := s.data.mapElement Element.mark }) fun _ => rfl).data_eq]
    cases hsd : s.data <;> rw [hsd] at he <;> cases he
    rfl
  · rw [Element.hasAttribute, Element.mark, Element.attribute?_setAttribute_self, Option.isSome_some]

end Document

end LiveMarkup
