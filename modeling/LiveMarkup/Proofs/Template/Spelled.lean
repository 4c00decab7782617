import LiveMarkup.Proofs.Template.Found

/-!
# Regular markup is well spelled when it is bound

Markup that does not mention binding attributes has no others, once it is bound, than those that its
expressions are bound to.  In regular markup these stand in tags that are read as they are written, and
so the markup is well spelled (`Regular.spelled`).
-/

namespace LiveMarkup

open Text

variable {cs s u x rest : List Char} {t : TagText}

/-! ## Pieces -/

theorem elements_leaf (data : NodeData) :
    (Event.whole (.leaf data)).elements = data.element?.toList := by
  rw [Event.elements, data_leaf]
  cases data <;> rfl

theorem elements_raw (e : Element) (s : List Char) :
    (Event.whole (.node (.element e) (rawContent s))).elements = [e] := by
  rw [Event.elements, Event.data, Tree.dataAll_node, Tree.dataAll_nil, List.append_nil, rawContent]
  split
  · rw [Tree.dataAll_nil]
    rfl
  · rw [Tree.leaf, Tree.dataAll_node, Tree.dataAll_nil]
    rfl

/-- A text that can be bound, and in which nothing looks like a reference once it is. -/
structure Bindable (s : List Char) : Prop where
  bindable : IsBindable s
  unreferring : hasExpression s = true → Unreferring s

/-- A tag whose bindings are found in its text once they are written out. -/
structure TagText.Bindable (t : TagText) : Prop where
  attributes : ∀ p ∈ t.attributes, p.bound.Found
  /-- No attribute is bound twice, also if the text of the element is bound. -/
  names : (String.ofList textBinding :: t.attributes.map fun p => p.bound.asAttribute.1).Nodup

/-- The text of an element that is bound in its tag. -/
theorem found_textBinding (hs : Unreferring s) (gap : List Char) :
    (TagPart.assigned gap textBinding ['='] ['"'] (escapeAll (trim s)) ['"']).Found := by
  obtain ⟨a, b, hcs, -, -⟩ := trim_eq s
  have htrim : Unreferring (trim s) := fun d hd h =>
    hs d hd (h.trans ⟨a, b, by rw [List.append_assoc, ← hcs]⟩)
  refine @TagPart.Found.binding gap "text".toList _
    ⟨by decide, by simp; decide, by decide, fun _ => by decide⟩ (not_mem_escape (by simp [referenceOf]) (.inl (by simp))) ?_
  rw [foundValue, if_pos rfl, bindingText_bindingValue_escapeAll htrim, decodeEntities_escapeAll]

namespace Spelled

theorem text (hs : '<' ∉ s) (hsilent : ¬ bindingStart <:+: s) (hhead : rest.head?.all (· = '<') = true)
    (h : Spelled rest) : Spelled (s ++ rest) := by
  rcases eq_or_ne s [] with rfl | hne
  · exact h
  refine .silent hne (.of_startless hsilent fun c hc => ?_) (readEvent_text hne hs hhead)
    (elements_leaf _) h
  rw [hc, Option.all_some, decide_eq_true_eq] at hhead
  subst hhead
  decide

/-- A piece up to the end of a tag or a comment. -/
theorem closed {a : List Char} {event : Event} (ha : ¬ bindingStart <:+: a)
    (hread : readEvent (a ++ '>' :: rest) = (event, rest)) (helements : event.elements = [])
    (h : Spelled rest) : Spelled (a ++ '>' :: rest) := by
  rw [show a ++ '>' :: rest = a ++ ['>'] ++ rest by simp] at hread ⊢
  exact silent (by simp) (.closed ha) hread helements h

theorem bracket (hhead : rest.head?.all (fun c => !c.isAlpha && c ≠ '/' && c ≠ '!') = true)
    (h : Spelled rest) : Spelled ('<' :: rest) :=
  silent (a := ['<']) (by simp) (.of_not_mem (by simp)) (readEvent_bracket hhead) (elements_leaf _) h

theorem ofTag (ht : t.Found) (htight : t.Tight) (hraw : t.element.isRaw = false) (h : Spelled u) :
    Spelled ('<' :: (t.inside ++ u)) := by
  rcases hwhole : t.closed || t.element.isVoid with _ | _
  · exact tag (s := []) ht trivial (ht.written.readEvent_start htight hraw hwhole u) rfl h
  · exact tag (s := []) ht trivial (ht.written.readEvent_whole htight hwhole u) (elements_leaf _) h

theorem bindText (hexpr : hasExpression s = true) (hs : Unreferring s)
    (hhead : rest.head?.all (· = '<') = true) (h : Spelled rest) :
    Spelled (LiveMarkup.bindText s ++ rest) := by
  have hfound : (spanTag.withText s).Found := {
    written := written_spanTag.withText s
    name := show ¬ bindingStart <:+: "span".toList by decide
    attributes := by simpa [spanTag, TagText.bare, TagText.withText] using found_textBinding hs _
    names := by simp [spanTag, TagText.bare, TagText.withText] }
  have hblank : ∀ {a : List Char} {c : Char}, (∀ c ∈ a, isBlank c = true) → isBlank c = false → c ∉ a :=
    fun ha hc hmem => by
      rw [ha _ hmem] at hc
      cases hc
  have hsilent : ∀ {a : List Char}, (∀ c ∈ a, isBlank c = true) → ¬ bindingStart <:+: a := fun ha h =>
    hblank ha (c := 'p') (by decide) (h.subset (by decide))
  have hbefore : ∀ c ∈ s.takeWhile isBlank, isBlank c = true := fun c hc => List.mem_takeWhile_imp hc
  have hafter : ∀ c ∈ (s.reverse.takeWhile isBlank).reverse, isBlank c = true := fun c hc =>
    List.mem_takeWhile_imp (List.mem_reverse.mp hc)
  have hend : Spelled ("</span".toList ++ '>' :: ((s.reverse.takeWhile isBlank).reverse ++ rest)) :=
    closed (by decide) (readEvent_endTag (s := "span".toList) (by decide) _) rfl
      (text (hblank hafter (by decide)) (hsilent hafter) hhead h)
  have hraw : (spanTag.withText s).element.isRaw = false := by
    have htag : (spanTag.withText s).element.tag = "span" := (spanTag.withText s).tag_element
    rw [Element.isRaw, htag]
    decide
  have htag := ofTag hfound ((TagText.tight_bare _).withText s) hraw hend
  rw [bindText_eq hexpr]
  exact text (hblank hbefore (by decide)) (hsilent hbefore) rfl htag

end Spelled

/-! ## Regular markup -/

theorem infix_name (t : TagText) (u : List Char) : t.name <:+: '<' :: (t.inside ++ u) :=
  ⟨['<'], t.attributes.flatMap TagPart.source ++ t.close ++ u, by simp [TagText.inside]⟩

theorem not_bindsText (h : ¬ bindingStart <:+: lowerCase t.inside) : t.bindsText = false := by
  refine Bool.eq_false_iff.mpr fun hbinds => h ?_
  obtain ⟨p, hp, hname⟩ := List.any_eq_true.mp hbinds
  have hsource : p.source <:+: t.inside := by
    obtain ⟨before, after, hattributes⟩ := List.append_of_mem hp
    rw [TagText.inside, hattributes]
    exact ⟨t.name ++ before.flatMap TagPart.source, after.flatMap TagPart.source ++ t.close, by simp⟩
  have hmention : ∀ {n : List Char}, n <:+: p.source → lowerCase n = textBinding →
      bindingStart <:+: lowerCase t.inside := by
    intro n hn htext
    have hlower : lowerCase n <:+: lowerCase t.inside := (hn.trans hsource).map _
    rw [htext] at hlower
    exact List.IsInfix.trans ⟨[], "text".toList, rfl⟩ hlower
  rcases p with gap | ⟨gap, name⟩ | ⟨gap, name, link, opening, raw, closing⟩ | source
  · cases hname
  · exact hmention ⟨gap, [], by simp [TagPart.source]⟩ (of_decide_eq_true hname)
  · exact hmention ⟨gap, link ++ opening ++ raw ++ closing, by simp [TagPart.source]⟩
      (of_decide_eq_true hname)
  · cases hname

namespace TagText.Bindable

variable (h : t.Bindable) (ht : t.Written) (hname : ¬ bindingStart <:+: t.name)
include h ht hname

theorem found_bound : t.bound.Found where
  written := ht.bound
  name := hname
  attributes := List.forall_mem_map.mpr h.attributes
  names := by
    rw [TagText.bound, List.map_map]
    exact (List.nodup_cons.mp h.names).2

theorem found_withText (hs : Unreferring s) : (t.withText s).Found where
  written := ht.withText s
  name := hname
  attributes := List.forall_mem_append.mpr ⟨List.forall_mem_map.mpr h.attributes,
    List.forall_mem_singleton.mpr (found_textBinding hs _)⟩
  names := by
    obtain ⟨hnew, hnames⟩ := List.nodup_cons.mp h.names
    rw [TagText.withText, List.map_append, List.map_map]
    refine List.Nodup.append hnames (List.nodup_singleton _) ?_
    rw [List.map_singleton, List.disjoint_singleton]
    exact hnew

end TagText.Bindable

/-- Regular markup that does not mention bindings is well spelled when it is bound. -/
theorem Regular.spelled (h : Regular Bindable TagText.Bindable cs)
    (hcs : ¬ bindingStart <:+: lowerCase cs) : Spelled (bindMarkup cs) := by
  induction hn : cs.length using Nat.strong_induction_on generalizing cs with
  | _ n ih =>
    subst hn
    have hpart : ∀ {a : List Char}, a <:+: cs → ¬ bindingStart <:+: lowerCase a := fun ha h =>
      hcs (h.trans (ha.map _))
    have hrest : ∀ {rest : List Char}, Regular Bindable TagText.Bindable rest → rest <:+ cs →
        rest.length < cs.length → Spelled (bindMarkup rest) := fun hrest hsuffix hlt =>
      ih _ hlt hrest (hpart hsuffix.isInfix) rfl
    cases h with
    | nil => exact .nil
    | @text s rest hs0 hscan hs htail =>
      have hhead := htail.head_after hscan
      have htail := hrest htail (List.suffix_append s rest) (by
        simpa using List.length_pos_of_ne_nil hs0)
      rw [bindMarkup_text hs0 hscan]
      by_cases hexpr : hasExpression s = true
      · exact .bindText hexpr (hs.unreferring hexpr) hhead htail
      · rw [LiveMarkup.bindText, if_neg hexpr]
        exact .text (hs.bindable.resolve_left hexpr)
          (not_infix_of_lowerCase (hpart (List.prefix_append s rest).isInfix)) hhead htail
    | @comment s rest hs htail =>
      have hbound : bindMarkup ("<!--".toList ++ (s ++ ("-->".toList ++ rest))) =
          ("<!--".toList ++ s ++ "--".toList) ++ '>' :: bindMarkup rest := by
        rw [bindMarkup_comment hs]
        simp
      have hread := readEvent_comment hs (bindMarkup rest)
      rw [← bindMarkup_comment hs, hbound] at hread
      rw [hbound]
      exact .closed (not_infix_of_lowerCase (hpart ⟨[], '>' :: rest, by simp⟩)) hread (elements_leaf _)
        (hrest htail ⟨"<!--".toList ++ s ++ "-->".toList, by simp⟩ (by simp; omega))
    | @doctype s rest hs hdash hexpr htail =>
      have hgt : '>' ∉ s := fun h => hs _ h (by simp)
      rw [bindMarkup_doctype hs hdash hexpr]
      exact .closed (a := '<' :: '!' :: s) (not_infix_of_lowerCase (hpart ⟨[], '>' :: rest, by simp⟩))
        (readEvent_doctype hgt hdash _) (elements_leaf _)
        (hrest htail ⟨'<' :: '!' :: (s ++ ['>']), by simp⟩ (by simp; omega))
    | @boundDoctype s rest hhead hopen hscan hexpr hs htail =>
      have hunreferring : Unreferring s := fun d hd h =>
        hs.unreferring (by rwa [← List.singleton_append, hasExpression_append (by decide)]) d hd
          (h.trans (List.suffix_cons '<' s).isInfix)
      have htext := Spelled.bindText hexpr hunreferring (htail.head_after hscan)
        (hrest htail ((List.suffix_append s rest).trans (List.suffix_cons _ _)) (by simp))
      rw [bindMarkup_boundDoctype hhead hopen hscan]
      refine .bracket ?_ htext
      rw [List.head?_append, head_bindText hexpr hhead]
      rfl
    | @endTag s rest hs htail =>
      rw [bindMarkup_endTag hs]
      exact .closed (a := '<' :: '/' :: s) (not_infix_of_lowerCase (hpart ⟨[], '>' :: rest, by simp⟩))
        (readEvent_endTag hs _) rfl
        (hrest htail ⟨'<' :: '/' :: (s ++ ['>']), by simp⟩ (by simp; omega))
    | @bracket rest hhead htail =>
      rw [bindMarkup_bracket hhead]
      exact .bracket (htail.head_bracket hhead) (hrest htail (List.suffix_cons _ _) (by simp))
    | @tag t rest ht htight htag hraw hopen htail =>
      have hname : ¬ bindingStart <:+: t.name := not_infix_of_lowerCase (hpart (infix_name t rest))
      rcases bindMarkup_tag ht htight hraw hopen with hbind | ⟨-, -, s, rest', hscan, hexpr, hbind⟩ <;>
        rw [hbind]
      · exact .ofTag (htag.found_bound ht hname) htight hraw
          (hrest htail ⟨'<' :: t.inside, by simp⟩ (by simp))
      · obtain ⟨hs, htail'⟩ := htail.scanText hscan
        have hsum := scanText_eq rest.length rest
        rw [hscan] at hsum
        have hbindable := hs (by rintro rfl; cases hexpr)
        exact .ofTag (htag.found_withText ht hname (hbindable.unreferring hexpr)) (htight.withText s) hraw
          (hrest htail' ⟨'<' :: (t.inside ++ s), by rw [hsum]; simp⟩ (by rw [hsum]; simp; omega))
    | @bound t s rest ht htight htag hraw hclosed hvoid hbinds hs hend htail =>
      rw [not_bindsText (hpart ⟨['<'], s ++ rest, by simp⟩)] at hbinds
      cases hbinds
    | @raw t s x rest ht htight htag hraw hclosed hs hx hend htail =>
      have hname : ¬ bindingStart <:+: t.name := not_infix_of_lowerCase (hpart (infix_name t _))
      have hclose : s ++ '<' :: '/' :: (x ++ '>' :: bindMarkup rest) =
          (s ++ '<' :: '/' :: x ++ ['>']) ++ bindMarkup rest := by simp
      have hread := ht.bound.readEvent_raw htight hraw hclosed hs hx hend (bindMarkup rest)
      rw [hclose] at hread
      rw [bindMarkup_raw ht htight hraw hs hx hend, hclose]
      exact .tag (htag.found_bound ht hname)
        (.closed (not_infix_of_lowerCase (hpart ⟨'<' :: t.inside, '>' :: rest, by simp⟩))) hread
        (elements_raw _ s) (hrest htail ⟨'<' :: (t.inside ++ (s ++ '<' :: '/' :: (x ++ ['>']))), by simp⟩
          (by simp; omega))
    | @unclosedComment s hs =>
      have hread := readEvent_unclosedComment hs
      rw [← List.append_nil ("<!--".toList ++ s)] at hread
      rw [bindMarkup_unclosedComment hs, ← List.append_nil ("<!--".toList ++ s)]
      exact .silent (by simp) (.of_startless (not_infix_of_lowerCase (hpart List.infix_rfl)) (by simp))
        hread (elements_leaf _) .nil
    | @unclosedEndTag s hs =>
      have hread := readEvent_unclosedEndTag hs
      rw [← List.append_nil ('<' :: '/' :: s)] at hread
      rw [bindMarkup_unclosedEndTag hs, ← List.append_nil ('<' :: '/' :: s)]
      exact .silent (by simp) (.of_startless (not_infix_of_lowerCase (hpart List.infix_rfl)) (by simp))
        hread rfl .nil
    | @unclosedRaw t s ht htight htag hraw hclosed hs =>
      have hname : ¬ bindingStart <:+: t.name := not_infix_of_lowerCase (hpart (infix_name t s))
      have hread := ht.bound.readEvent_unclosedRaw htight hraw hclosed hs
      rw [← List.append_nil s] at hread
      rw [bindMarkup_unclosedRaw ht htight hraw hs, ← List.append_nil s]
      exact .tag (htag.found_bound ht hname)
        (.of_startless (not_infix_of_lowerCase (hpart ⟨'<' :: t.inside, [], by simp⟩)) (by simp)) hread
        (elements_raw _ _) .nil

end LiveMarkup
