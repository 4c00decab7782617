import LiveMarkup.Proofs.Template.Checked
import LiveMarkup.Proofs.Template.Preserved

/-!
# References to classes

A binding of classes whose value is an object and one of its properties is a reference (`property?`):
it is written anew as the scoped name of the property.  Other bindings of classes are for the page,
but only those without a value stay.  So where nothing in markup looks like a binding of classes but
attributes that are (`ClassesSpelled`), the references are written anew and all else stays if and only
if no other value is bound (`scopeClasses_eq_iff_bindsReferences`); a class that is computed is lost
(`compile_drops_class_binding`).
-/

namespace LiveMarkup

open Text

variable {scope cs raw gap name property u x s : List Char} {c : Char} {p : TagPart} {ps : List TagPart}
  {t : TagText} {ms : List MarkupPiece}

/-! ## What is meant -/

/-- The attribute that binds the classes of an element. -/
def classBinding : List Char := "pado-class".toList

/-- The property that a text refers to, if it is an object and one of its properties. -/
def property? (raw : List Char) : Option (List Char) :=
  match cut? ['.'] raw with
  | some (object, property) =>
    if isIdentifier object && isIdentifier property then some property else none
  | none => none

/-- The value of a binding of classes. -/
def TagPart.classValue? : TagPart → Option (List Char)
  | assigned _ name _ _ raw _ => if lowerCase name = classBinding then some raw else none
  | bare _ _ | slash _ | ending _ => none

/-- A part of a tag with its reference to a class replaced; what is no reference stays. -/
def TagPart.inScope (scope : List Char) (p : TagPart) : TagPart :=
  match p, p.classValue?.bind property? with
  | assigned gap _ _ _ _ _, some property =>
    assigned gap "class".toList ['='] ['"'] (scopedName property scope) ['"']
  | p, _ => p

/-- A tag with its references to classes replaced. -/
def TagText.inScope (scope : List Char) (t : TagText) : TagText :=
  { t with attributes := t.attributes.map (TagPart.inScope scope) }

/-- A piece of markup: a tag with the text that is read along with it, or what has no tag. -/
inductive MarkupPiece where
  | plain (text : List Char)
  | tag (t : TagText) (content : List Char)

namespace MarkupPiece

/-- The text of a piece. -/
def source : MarkupPiece → List Char
  | plain text => text
  | tag t content => '<' :: (t.inside ++ content)

/-- A piece with its references to classes replaced. -/
def inScope (scope : List Char) : MarkupPiece → MarkupPiece
  | plain text => plain text
  | tag t content => tag (t.inScope scope) content

end MarkupPiece

/-- The markup that consists of some pieces. -/
def markup (ms : List MarkupPiece) : List Char :=
  ms.flatMap MarkupPiece.source

/-- The classes of an element are bound to nothing, or to references. -/
def Element.BindsReferences (e : Element) : Prop :=
  ∀ v, (String.ofList classBinding, v) ∈ e.attributes → v = "" ∨ (property? v.toList).isSome = true

/-- In markup, as it is read for a page, classes are bound to nothing but references. -/
def BindsReferences (cs : List Char) : Prop :=
  ∀ event ∈ events cs, ∀ e ∈ event.elements, e.BindsReferences

/-- An attribute that either does not look like a binding of classes, or is one. -/
inductive TagPart.ClassSpelled : TagPart → Prop
  | other {p : TagPart} : p.classValue? = none → ¬ classReference <:+: p.source → ClassSpelled p
  /-- A reference to a class is written without character references. -/
  | binding {gap raw : List Char} : '"' ∉ raw →
    ((property? (decodeEntities raw)).isSome = true → '&' ∉ raw) →
    ClassSpelled (.assigned gap classBinding ['='] ['"'] raw ['"'])

/-- A tag in which nothing else looks like a binding of classes. -/
structure TagText.ClassSpelled (t : TagText) : Prop where
  written : t.Written
  attributes : ∀ p ∈ t.attributes, p.ClassSpelled
  /-- No attribute is written twice. -/
  names : (t.attributes.map fun p => p.asAttribute.1).Nodup

/-- Pieces of markup, as they are read for a page, in which nothing but attributes looks like a
binding of classes. -/
inductive ClassesSpelled : List MarkupPiece → Prop
  | nil : ClassesSpelled []
  | plain {text : List Char} {ms : List MarkupPiece} {event : Event} : text ≠ [] →
    Passes classReference (markup ms) text → readEvent (text ++ markup ms) = (event, markup ms) →
    event.elements = [] → ClassesSpelled ms → ClassesSpelled (.plain text :: ms)
  | tag {t : TagText} {content : List Char} {ms : List MarkupPiece} {event : Event} :
    t.ClassSpelled → Passes classReference (markup ms) content →
    readEvent ('<' :: (t.inside ++ (content ++ markup ms))) = (event, markup ms) →
    event.elements = [t.element] → ClassesSpelled ms → ClassesSpelled (.tag t content :: ms)

/-! ## References -/

theorem eq_of_property? (h : property? raw = some property) : ∃ object, raw = object ++ '.' :: property ∧
    isIdentifier object = true ∧ isIdentifier property = true := by
  unfold property? at h
  split at h
  · rename_i object property' hcut
    split_ifs at h with hid
    cases h
    rw [Bool.and_eq_true] at hid
    exact ⟨object, by simpa using cut_eq hcut, hid⟩
  · cases h

/-- A reference has neither quotes nor ampersands. -/
theorem not_mem_of_property? (h : property? raw = some property) (hc : isIdentRest c = false)
    (hdot : c ≠ '.') : c ∉ raw := by
  obtain ⟨object, rfl, hobject, hproperty⟩ := eq_of_property? h
  simp only [List.mem_append, List.mem_cons, not_or]
  exact ⟨not_mem_of_isIdentifier hobject hc, hdot, not_mem_of_isIdentifier hproperty hc⟩

theorem splitAt_eq_singleton {mark : Char} : ∀ {cs : List Char}, mark ∉ cs → splitAt mark cs = [cs]
  | [], _ => rfl
  | c :: cs, h => by
    rw [List.mem_cons, not_or] at h
    rw [splitAt, splitAt_eq_singleton h.2]
    exact if_neg (Ne.symm h.1)

theorem splitAt_ne_nil (mark : Char) (cs : List Char) : splitAt mark cs ≠ [] := by
  rcases cs with _ | ⟨c, cs⟩
  · simp [splitAt]
  · rw [splitAt]
    split
    · simp
    · split <;> simp

theorem splitAt_append {mark : Char} {a : List Char} (h : mark ∉ a) (cs : List Char) :
    splitAt mark (a ++ mark :: cs) = a :: splitAt mark cs := by
  induction a with
  | nil =>
    obtain ⟨piece, pieces, hsplit⟩ := List.exists_cons_of_ne_nil (splitAt_ne_nil mark cs)
    rw [List.nil_append, splitAt, hsplit]
    exact if_pos rfl
  | cons c a ih =>
    rw [List.mem_cons, not_or] at h
    rw [List.cons_append, splitAt, ih h.2]
    exact if_neg (Ne.symm h.1)

/-- The property of a reference is what stands after its last dot. -/
theorem lastSegment_eq (h : property? raw = some property) : lastSegment raw = property := by
  obtain ⟨object, rfl, hobject, hproperty⟩ := eq_of_property? h
  rw [lastSegment, splitAt_append (not_mem_of_isIdentifier hobject (by decide)),
    splitAt_eq_singleton (not_mem_of_isIdentifier hproperty (by decide))]
  exact trim_eq_self fun c hc => isBlank_of_isIdentRest ((isIdentRest_of_isIdentifier hproperty).2 c hc)

/-! ## The search for references -/

theorem scopeClassesFrom_eq : ∀ {fuel : Nat} {cs : List Char}, cs.length ≤ fuel →
    scopeClassesFrom scope fuel cs = scopeClasses scope cs
  | 0, cs, h => by
    obtain rfl := List.length_eq_zero_iff.mp (Nat.le_zero.mp h)
    rfl
  | _ + 1, [], _ => rfl
  | fuel + 1, c :: cs, h => by
    have hcs : cs.length ≤ fuel := Nat.le_of_succ_le_succ h
    rw [scopeClasses, List.length_cons, scopeClassesFrom, scopeClassesFrom]
    rcases hafter : after? classReference (c :: cs) with _ | rest <;> simp only
    · rw [scopeClassesFrom_eq hcs, scopeClassesFrom_eq le_rfl]
    · have hsum := congrArg List.length (after?_eq_some_iff.mp hafter)
      have hvalue := congrArg List.length
        (List.takeWhile_append_dropWhile (p := fun c => decide (c ≠ '"')) (l := rest))
      split
      · rw [scopeClassesFrom_eq hcs, scopeClassesFrom_eq le_rfl]
      · rw [scopeClassesFrom_eq hcs, scopeClassesFrom_eq le_rfl]
      · rename_i d rest' hdrop _
        have hmark : classReference.length = 12 := rfl
        rw [hdrop] at hvalue
        simp only [List.length_append, List.length_cons] at hsum hvalue
        have hrest : rest'.length ≤ fuel ∧ rest'.length ≤ cs.length := by omega
        rw [scopeClassesFrom_eq hrest.1, scopeClassesFrom_eq hrest.2]

theorem scopeClasses_cons_of_none (h : after? classReference (c :: cs) = none) :
    scopeClasses scope (c :: cs) = c :: scopeClasses scope cs := by
  rw [scopeClasses, List.length_cons, scopeClassesFrom, h]
  rfl

theorem scopeClasses_passes (h : Passes classReference u s) :
    scopeClasses scope (s ++ u) = s ++ scopeClasses scope u := by
  induction s with
  | nil => rfl
  | cons c s ih =>
    have hc : after? classReference (c :: (s ++ u)) = none := h.1
    rw [List.cons_append, scopeClasses_cons_of_none hc, ih h.2, List.cons_append]

theorem passes_of_not_mem (h : 'p' ∉ s) : Passes classReference u s := by
  induction s with
  | nil => trivial
  | cons c s ih =>
    rw [List.mem_cons, not_or] at h
    obtain ⟨mark, hmark⟩ : ∃ mark, classReference = 'p' :: mark := ⟨_, rfl⟩
    exact ⟨by rw [hmark, List.cons_append, after?, if_neg h.1], ih h.2⟩

/-- What is bound is replaced, whatever it is. -/
theorem scopeClasses_binding (hne : raw ≠ []) (hraw : '"' ∉ raw) (u : List Char) :
    scopeClasses scope (classReference ++ (raw ++ '"' :: u)) =
      "class=\"".toList ++ scopedName (lastSegment raw) scope ++ '"' :: scopeClasses scope u := by
  obtain ⟨m, mark, hmark⟩ := List.exists_cons_of_ne_nil (show classReference ≠ [] by decide)
  obtain ⟨htake, hdrop⟩ := takeWhile_ne hraw u
  have hafter : after? classReference (m :: (mark ++ (raw ++ '"' :: u))) = some (raw ++ '"' :: u) :=
    after?_eq_some_iff.mpr (by rw [hmark, List.cons_append])
  obtain ⟨d, raw, rfl⟩ := List.exists_cons_of_ne_nil hne
  rw [hmark, List.cons_append, scopeClasses, List.length_cons, scopeClassesFrom, hafter]
  simp only [htake, hdrop]
  rw [scopeClassesFrom_eq (by simp; omega)]

/-- A binding to nothing stays. -/
theorem scopeClasses_unbound (u : List Char) : scopeClasses scope (classReference ++ '"' :: u) =
    classReference ++ '"' :: scopeClasses scope u := by
  obtain ⟨mark, hmark⟩ : ∃ mark, classReference = 'p' :: mark ∧ 'p' ∉ mark := ⟨_, rfl, by decide⟩
  have hafter : after? classReference ('p' :: (mark ++ '"' :: u)) = some ('"' :: u) :=
    after?_eq_some_iff.mpr (by rw [hmark.1, List.cons_append])
  have hrest : Passes classReference u (mark ++ ['"']) :=
    passes_of_not_mem (by simpa using hmark.2)
  have hfirst : scopeClasses scope ('p' :: (mark ++ '"' :: u)) =
      'p' :: scopeClasses scope (mark ++ '"' :: u) := by
    rw [scopeClasses, List.length_cons, scopeClassesFrom, hafter]
    rfl
  have hsum : mark ++ '"' :: u = mark ++ ['"'] ++ u := by simp
  rw [hmark.1, List.cons_append, hfirst, hsum, scopeClasses_passes hrest]
  simp

/-! ## Attributes -/

/-- An attribute binds classes to nothing, or to a reference, if it binds them at all. -/
def TagPart.BindsReference (p : TagPart) : Prop :=
  ∀ raw ∈ p.classValue?, raw = [] ∨ (property? raw).isSome = true

theorem inScope_of_none (h : p.classValue?.bind property? = none) : p.inScope scope = p := by
  unfold TagPart.inScope
  rw [h]
  split
  · rename_i heq
    cases heq
  · rfl

theorem classValue?_binding :
    (TagPart.assigned gap classBinding ['='] ['"'] raw ['"']).classValue? = some raw := by
  rw [TagPart.classValue?, if_pos (by decide)]

theorem inScope_binding (h : property? raw = some property) :
    (TagPart.assigned gap classBinding ['='] ['"'] raw ['"']).inScope scope =
      .assigned gap "class".toList ['='] ['"'] (scopedName property scope) ['"'] := by
  unfold TagPart.inScope
  rw [classValue?_binding, Option.bind_some, h]

theorem source_quoted (gap name raw u : List Char) :
    (TagPart.assigned gap name ['='] ['"'] raw ['"']).source ++ u =
      gap ++ (name ++ '=' :: '"' :: (raw ++ '"' :: u)) := by
  simp [TagPart.source]

theorem source_classBinding (gap raw u : List Char) :
    (TagPart.assigned gap classBinding ['='] ['"'] raw ['"']).source ++ u =
      gap ++ (classReference ++ (raw ++ '"' :: u)) := by
  have hmark : classReference = classBinding ++ ['=', '"'] := by decide
  rw [source_quoted, hmark, List.append_assoc]
  rfl

/-- An attribute is written as it is meant, and then what follows is too, if it does not bind anything
but a reference. -/
theorem scopeClasses_part_iff (h : p.ClassSpelled) (hp : p.Written) (hu : FollowsAttribute u) :
    scopeClasses scope (p.source ++ u) = (p.inScope scope).source ++ x ↔
      p.BindsReference ∧ scopeClasses scope u = x := by
  cases h with
  | other hnone hmark =>
    have hrefers : p.BindsReference := fun raw hraw => by
      rw [hnone] at hraw
      cases hraw
    rw [scopeClasses_passes (passes_of_not_within hmark (isTagNameEnd_not_mem (by decide) hu.head)),
      inScope_of_none (by rw [hnone]; rfl), List.append_right_inj, and_iff_right hrefers]
  | @binding gap raw hraw _ =>
    have hgap : 'p' ∉ gap := fun hmem => by
      have := hp.1.2 'p' hmem
      revert this
      decide
    rw [source_classBinding, scopeClasses_passes (passes_of_not_mem hgap)]
    simp only [TagPart.BindsReference, classValue?_binding, Option.mem_some_iff, forall_eq']
    rcases eq_or_ne raw [] with rfl | hne
    · rw [inScope_of_none (by rw [classValue?_binding]; rfl), source_classBinding, List.nil_append,
        List.nil_append, scopeClasses_unbound, List.append_right_inj, List.append_right_inj]
      simp
    · rw [scopeClasses_binding hne hraw]
      rcases hproperty : property? raw with _ | property
      · -- the names of the attributes differ in their first characters
        obtain ⟨name, hname⟩ : ∃ name, "class=\"".toList = 'c' :: name := ⟨_, rfl⟩
        obtain ⟨mark, hmark⟩ : ∃ mark, classReference = 'p' :: mark := ⟨_, rfl⟩
        rw [inScope_of_none (by rw [classValue?_binding]; exact hproperty), source_classBinding,
          List.append_right_inj, hname, hmark]
        simp [hne]
      · have hname : "class=\"".toList = "class".toList ++ ['=', '"'] := by decide
        rw [inScope_binding hproperty, lastSegment_eq hproperty, source_quoted, List.append_right_inj,
          hname]
        simp

/-! ## Tags -/

theorem scopeClasses_attributes_iff (hps : ∀ p ∈ ps, p.Written) (hspelled : ∀ p ∈ ps, p.ClassSpelled)
    (hgap : ∀ c ∈ t.gap, isAsciiBlank c = true) (u x : List Char) :
    scopeClasses scope (ps.flatMap TagPart.source ++ (t.close ++ u)) =
        (ps.map (TagPart.inScope scope)).flatMap TagPart.source ++ (t.close ++ x) ↔
      (∀ p ∈ ps, p.BindsReference) ∧ scopeClasses scope u = x := by
  induction ps with
  | nil =>
    have hclose : 'p' ∉ t.close := not_mem_close hgap (by decide) (by decide)
    simp only [List.flatMap_nil, List.map_nil, List.nil_append, List.not_mem_nil, false_implies,
      implies_true, true_and]
    rw [scopeClasses_passes (passes_of_not_mem hclose), List.append_right_inj]
  | cons p ps ih =>
    rw [List.forall_mem_cons] at hps hspelled
    rw [List.flatMap_cons, List.map_cons, List.flatMap_cons, List.append_assoc, List.append_assoc,
      scopeClasses_part_iff hspelled.1 hps.1 (followsAttribute hps.2 hgap u), ih hps.2 hspelled.2,
      List.forall_mem_cons, and_assoc]

theorem scopeClasses_tag_iff (h : t.ClassSpelled) (u x : List Char) :
    scopeClasses scope ('<' :: (t.inside ++ u)) = '<' :: ((t.inScope scope).inside ++ x) ↔
      (∀ p ∈ t.attributes, p.BindsReference) ∧ scopeClasses scope u = x := by
  have hfollows := followsAttribute h.written.attributes h.written.gap u
  have hname : ¬ classReference <:+: '<' :: t.name := by
    intro hmem
    have hquote : '"' ∈ '<' :: t.name := hmem.subset (by decide)
    rw [List.mem_cons, or_iff_right (by decide)] at hquote
    exact (h.written.name _ hquote).2 (by decide)
  have hsource : ∀ (t : TagText) (u : List Char), '<' :: (t.inside ++ u) =
      '<' :: t.name ++ (t.attributes.flatMap TagPart.source ++ (t.close ++ u)) := by
    simp [TagText.inside]
  rw [hsource, hsource, scopeClasses_passes (passes_of_not_within hname
    (isTagNameEnd_not_mem (by decide) hfollows.head))]
  exact List.append_right_inj _ |>.trans
    (scopeClasses_attributes_iff h.written.attributes h.attributes h.written.gap u x)

/-- Written in a tag or read from it, a value is a reference or none. -/
theorem TagPart.ClassSpelled.bindsReference_iff (h : p.ClassSpelled) : p.BindsReference ↔
    ∀ v, p.asAttribute = (String.ofList classBinding, v) → v = "" ∨ (property? v.toList).isSome = true := by
  cases h with
  | other hnone hmark =>
    refine iff_of_true (fun raw hraw => ?_) fun v hv => ?_
    · rw [hnone] at hraw
      cases hraw
    · rcases p with gap | ⟨gap, name⟩ | ⟨gap, name, link, opening, raw, closing⟩ | source
      · exact .inl (Prod.mk.inj hv).2.symm
      · exact .inl (Prod.mk.inj hv).2.symm
      · rw [classValue?, if_pos (String.ofList_injective (Prod.mk.inj hv).1)] at hnone
        cases hnone
      · exact .inl (Prod.mk.inj hv).2.symm
  | @binding gap raw hraw hamp =>
    have hself : (property? raw).isSome = true → '&' ∉ raw := fun h => by
      obtain ⟨property, hproperty⟩ := Option.isSome_iff_exists.mp h
      exact not_mem_of_property? hproperty (by decide) (by decide)
    have hnil : decodeEntities raw = [] ↔ raw = [] :=
      ⟨fun h => by_contra fun hne => decodeEntities_ne_nil hne h, fun h => by rw [h]; rfl⟩
    have hreference : (property? (decodeEntities raw)).isSome = true ↔ (property? raw).isSome = true :=
      ⟨fun h => decodeEntities_eq_self (hamp h) ▸ h,
        fun h => (decodeEntities_eq_self (hself h)).symm ▸ h⟩
    have hattribute : (TagPart.assigned gap classBinding ['='] ['"'] raw ['"']).asAttribute =
        (String.ofList classBinding, String.ofList (decodeEntities raw)) := by
      rw [TagPart.asAttribute, show lowerCase classBinding = classBinding by decide]
    simp only [TagPart.BindsReference, classValue?_binding, Option.mem_some_iff, forall_eq', hattribute,
      Prod.mk.injEq, true_and, String.toList_ofList, hreference, String.ofList_eq_empty_iff, hnil]

theorem bindsReferences_element_iff (h : t.ClassSpelled) :
    t.element.BindsReferences ↔ ∀ p ∈ t.attributes, p.BindsReference := by
  rw [Element.BindsReferences, h.written.attributes_element h.names]
  constructor
  · intro hv p hp
    exact (h.attributes p hp).bindsReference_iff.mpr fun v hpv => hv v (hpv ▸ List.mem_map_of_mem hp)
  · intro hp v hv
    obtain ⟨p, hmem, hpv⟩ := List.mem_map.mp hv
    exact (h.attributes p hmem).bindsReference_iff.mp (hp p hmem) v hpv

/-! ## Markup -/

theorem bindsReferences_cons {event : Event} (hne : cs ≠ []) (h : readEvent cs = (event, u)) :
    BindsReferences cs ↔ (∀ e ∈ event.elements, e.BindsReferences) ∧ BindsReferences u := by
  rw [BindsReferences, events_of_readEvent hne h, List.forall_mem_cons]
  rfl

/-- Just the references to classes are written anew if and only if nothing else is bound. -/
theorem ClassesSpelled.scopeClasses_iff (h : ClassesSpelled ms) (scope : List Char) :
    scopeClasses scope (markup ms) = markup (ms.map (MarkupPiece.inScope scope)) ↔
      BindsReferences (markup ms) := by
  induction h with
  | nil => exact iff_of_true rfl fun event hevent => by cases hevent
  | @plain text ms event hne hpasses hread helements _ ih =>
    have hsource : markup (.plain text :: ms) = text ++ markup ms := rfl
    rw [hsource, bindsReferences_cons (List.append_ne_nil_of_left_ne_nil hne _) hread, helements,
      scopeClasses_passes hpasses, ← ih]
    simp only [List.not_mem_nil, false_implies, implies_true, true_and]
    exact List.append_right_inj text
  | @tag t content ms event ht hpasses hread helements _ ih =>
    have hsource : ∀ (t : TagText) (ms : List MarkupPiece), markup (.tag t content :: ms) =
        '<' :: (t.inside ++ (content ++ markup ms)) := fun t ms => by
      simp [markup, MarkupPiece.source]
    rw [List.map_cons, MarkupPiece.inScope, hsource, hsource,
      bindsReferences_cons (List.cons_ne_nil _ _) hread, helements, scopeClasses_tag_iff ht,
      scopeClasses_passes hpasses, List.append_right_inj, ih, List.forall_mem_singleton,
      bindsReferences_element_iff ht]

/-! ## Compiled templates -/

/-- In the pieces of markup of a template the classes are scoped. -/
theorem pieces_scopeClasses (scope : List Char) (t : Template) :
    (t.scopeClasses scope).pieces.map String.toList =
      (t.pieces.map String.toList).map (scopeClasses scope) := by
  simp [Template.pieces, Template.scopeClasses, Function.comp_def, List.map_flatMap, List.flatMap_map]

/-- The classes are scoped once all else is compiled. -/
theorem compile_scopeClasses {o : CompileOptions} {source : List Char} {c : Compiled} {path : String}
    (hpath : o.path = some path) (hscope : o.scopeClasses = true) (h : compile o source = .ok c) :
    ∃ c', compile { o with scopeClasses := false } source = .ok c' ∧
      c.template = c'.template.scopeClasses (scopeId path.toList) := by
  obtain ⟨⟨skeleton, f⟩, hfrom, h⟩ := bind_eq_ok_iff.mp h
  cases h
  refine ⟨_, bind_eq_ok_iff.mpr ⟨(skeleton, f), hfrom, rfl⟩, ?_⟩
  simp only [CompileOptions.applyScope, hpath, hscope, if_true, Bool.false_eq_true, if_false]

/-- Where nothing but attributes looks like a binding of classes, the references to classes are
replaced and all else stays if and only if classes are bound to nothing but references; and so it is in
all markup of a template that is compiled with scoped classes. -/
theorem scopeClasses_eq_iff_bindsReferences (o : CompileOptions) :
    (∀ scope ms, ClassesSpelled ms →
      (scopeClasses scope (markup ms) = markup (ms.map (MarkupPiece.inScope scope)) ↔
        BindsReferences (markup ms))) ∧
    ∀ source c path, o.path = some path → o.scopeClasses = true → compile o source = .ok c →
      ∃ c', compile { o with scopeClasses := false } source = .ok c' ∧
        c.template = c'.template.scopeClasses (scopeId path.toList) ∧
        ∀ mss : List (List MarkupPiece), c'.template.pieces.map String.toList = mss.map markup →
          (∀ ms ∈ mss, ClassesSpelled ms) →
            (c.template.pieces.map String.toList =
                mss.map (fun ms => markup (ms.map (MarkupPiece.inScope (scopeId path.toList)))) ↔
              ∀ m ∈ c'.template.pieces, BindsReferences m.toList) := by
  refine ⟨fun scope ms h => h.scopeClasses_iff scope, fun source c path hpath hscope h => ?_⟩
  obtain ⟨c', hc', htemplate⟩ := compile_scopeClasses hpath hscope h
  refine ⟨c', hc', htemplate, fun mss hpieces hspelled => ?_⟩
  have hscoped : c.template.pieces.map String.toList =
      mss.map fun ms => scopeClasses (scopeId path.toList) (markup ms) := by
    rw [htemplate, pieces_scopeClasses, hpieces, List.map_map]
    rfl
  have hbinds : (∀ m ∈ c'.template.pieces, BindsReferences m.toList) ↔
      ∀ ms ∈ mss, BindsReferences (markup ms) := by
    rw [← List.forall_mem_map (f := String.toList), hpieces, List.forall_mem_map]
  rw [hscoped, hbinds, List.map_inj_left]
  exact forall₂_congr fun ms hms => (hspelled ms hms).scopeClasses_iff _

/-- The start tag of a paragraph with a reference to a class. -/
def titleTag : TagText where
  name := ['p']
  attributes := [.assigned [' '] classBinding ['='] ['"'] "styles.title".toList ['"'],
    .bare [' '] ['i', 'd']]
  gap := []
  closed := false

/-- A text and a paragraph with a reference to a class. -/
def titlePieces : List MarkupPiece :=
  [.plain "a".toList, .tag titleTag [], .plain "</p>".toList]

theorem classesSpelled_titlePieces : ClassesSpelled titlePieces := by
  have hclass : PlainName ['c', 'l', 'a', 's', 's'] :=
    ⟨by decide, by simp [isNameChar, isAsciiBlank, tagMarks]⟩
  have hid : PlainName ['i', 'd'] := ⟨by decide, by simp [isNameChar, isAsciiBlank, tagMarks]⟩
  have hwritten : titleTag.Written := {
    letter := by decide
    name := by simp [titleTag, isTagNameEnd, isAsciiBlank, tagMarks]
    attributes := List.forall_mem_cons.mpr
      ⟨⟨isGap_space, plainName_bindingStart hclass, isLink_equals, .quoted (.inl rfl) (by decide)⟩,
        List.forall_mem_singleton.mpr ⟨isGap_space, hid⟩⟩
    gap := by simp [titleTag] }
  have hspelled : titleTag.ClassSpelled := {
    written := hwritten
    attributes := List.forall_mem_cons.mpr ⟨.binding (by decide) fun _ => by decide,
      List.forall_mem_singleton.mpr (.other rfl (by decide +kernel))⟩
    names := by decide +kernel }
  have htight : titleTag.Tight := {
    values := List.forall_mem_cons.mpr ⟨fun h => absurd h (by decide),
      List.forall_mem_singleton.mpr trivial⟩
    last := fun h => absurd h (by decide) }
  have hpasses : ∀ {u s : List Char}, ¬ classReference <:+: s → u.head?.all (· = '<') = true →
      Passes classReference u s := fun hs hu =>
    passes_of_not_within hs fun c hc hmem => by
      rw [hc, Option.all_some, decide_eq_true_eq] at hu
      subst hu
      revert hmem
      decide
  have hend : ClassesSpelled [.plain "</p>".toList] :=
    .plain (by decide) (hpasses (by decide +kernel) rfl)
      (readEvent_endTag (s := ['p']) (by decide) []) rfl .nil
  have htag : ClassesSpelled [.tag titleTag [], .plain "</p>".toList] :=
    .tag hspelled trivial (hwritten.readEvent_start htight rfl (by decide +kernel) _) rfl hend
  exact .plain (by decide) (hpasses (by decide +kernel) rfl)
    (readEvent_text (by decide) (by decide) rfl) (elements_leaf _) htag

/-- A text without directives is compiled to its markup alone. -/
theorem compile_bare (o : CompileOptions) (h : IsBare cs) : ∃ warnings, compile o cs =
    .ok ⟨o.applyScope ⟨String.ofList (bindMarkup cs), [], [], none⟩, warnings⟩ :=
  compile_outline o (nofun : ∀ c ∈ [], _) (show (Outline.text cs).WellFormed from h)

theorem scopeClasses_eq_iff_bindsReferences_title :
    ClassesSpelled titlePieces ∧
      scopeClasses "abc".toList (markup titlePieces) =
        markup (titlePieces.map (MarkupPiece.inScope "abc".toList)) ∧
      BindsReferences (markup titlePieces) ∧
      ∃ c, compile { path := some "src/app/page.pado" } (markup titlePieces) = .ok c ∧
        c.template.pieces.map String.toList =
          [markup (titlePieces.map (MarkupPiece.inScope "kdhp4o".toList))] := by
  have hspelled := classesSpelled_titlePieces
  obtain ⟨hmarkup, htemplate⟩ :=
    scopeClasses_eq_iff_bindsReferences { path := some "src/app/page.pado" }
  have hscoped : scopeClasses "abc".toList (markup titlePieces) =
      markup (titlePieces.map (MarkupPiece.inScope "abc".toList)) := by
    decide +kernel
  have hbinds := (hmarkup _ _ hspelled).mp hscoped
  have hbare : IsBare (markup titlePieces) := by
    unfold IsBare
    decide +kernel
  obtain ⟨warnings, hc⟩ := compile_bare { path := some "src/app/page.pado" } hbare
  obtain ⟨warnings', hunscoped⟩ :=
    compile_bare { path := some "src/app/page.pado", scopeClasses := false } hbare
  obtain ⟨c', hc', -, hpieces⟩ := htemplate _ _ _ rfl rfl hc
  obtain rfl := Except.ok.inj (hunscoped.symm.trans hc')
  have hbound : bindMarkup (markup titlePieces) = markup titlePieces := by decide +kernel
  have hhtml : (CompileOptions.applyScope { path := some "src/app/page.pado", scopeClasses := false }
      ⟨String.ofList (bindMarkup (markup titlePieces)), [], [], none⟩).pieces =
        [String.ofList (markup titlePieces)] := by
    rw [hbound]
    rfl
  have hscope : scopeId "src/app/page.pado".toList = "kdhp4o".toList := by decide +kernel
  have hall := hpieces [titlePieces] (by rw [hhtml]; simp) (by simpa using hspelled)
  rw [hhtml, hscope] at hall
  exact ⟨hspelled, hscoped, hbinds, _, hc, hall.mpr (by simpa using hbinds)⟩

/-- A class that is computed is taken for a reference, and its binding is gone. -/
theorem compile_drops_class_binding :
    property? "kind".toList = none ∧
      (∃ warnings, compile { path := some "src/app/page.pado", scopeClasses := false }
        "<p class=\x7bkind\x7d></p>".toList =
          .ok ⟨⟨"<p pado-class=\"kind\"></p>", [], [], none⟩, warnings⟩) ∧
      ∃ warnings, compile { path := some "src/app/page.pado" } "<p class=\x7bkind\x7d></p>".toList =
          .ok ⟨⟨"<p class=\"_kind_kdhp4o\"></p>", [], [], none⟩, warnings⟩ := by
  have hbare : IsBare "<p class=\x7bkind\x7d></p>".toList := by
    unfold IsBare
    decide +kernel
  have hbound : String.ofList (bindMarkup "<p class=\x7bkind\x7d></p>".toList) =
      "<p pado-class=\"kind\"></p>" := by decide +kernel
  have hscoped : (CompileOptions.applyScope { path := some "src/app/page.pado" }
      ⟨"<p pado-class=\"kind\"></p>", [], [], none⟩) =
        ⟨"<p class=\"_kind_kdhp4o\"></p>", [], [], none⟩ := by decide +kernel
  refine ⟨by decide, ?_, ?_⟩
  · obtain ⟨warnings, h⟩ :=
      compile_bare { path := some "src/app/page.pado", scopeClasses := false } hbare
    exact ⟨warnings, by rw [h, hbound]; rfl⟩
  · obtain ⟨warnings, h⟩ := compile_bare { path := some "src/app/page.pado" } hbare
    exact ⟨warnings, by rw [h, hbound, hscoped]⟩

end LiveMarkup
