import LiveMarkup.Proofs.Markup.Roundtrip
import LiveMarkup.Proofs.Template.Regular

/-!
# Bound markup is read piece by piece

What regular markup is bound to is read one piece after the other, each as the source has it but for
what is bound in it (`BoundStep`).  So whatever every piece keeps is kept by all that is read
(`Regular.foldl_bindMarkup`).
-/

namespace LiveMarkup

open Text

variable {cs s u x rest : List Char} {t : TagText} {b : Builder}

/-! ## What tags are read as -/

theorem TagText.Written.readEvent_whole (h : t.Written) (ht : t.Tight)
    (hwhole : (t.closed || t.element.isVoid) = true) (u : List Char) :
    LiveMarkup.readEvent ('<' :: (t.inside ++ u)) = (.whole (.leaf (.element t.element)), u) := by
  rw [h.readEvent ht, Element.opened, if_pos hwhole]

theorem TagText.Written.readEvent_start (h : t.Written) (ht : t.Tight) (hraw : t.element.isRaw = false)
    (hopen : (t.closed || t.element.isVoid) = false) (u : List Char) :
    LiveMarkup.readEvent ('<' :: (t.inside ++ u)) = (.start t.element, u) := by
  rw [h.readEvent ht, Element.opened, hopen, if_neg (by decide), if_neg (by simp [hraw])]

/-- The content of an element that holds a text. -/
def rawContent (s : List Char) : List Tree :=
  if s = [] then [] else [.leaf (.text (String.ofList s))]

theorem TagText.Written.readEvent_raw (h : t.Written) (ht : t.Tight) (hraw : t.element.isRaw = true)
    (hclosed : t.closed = false) (hs : ¬ ('<' :: '/' :: lowerCase t.name) <:+: lowerCase s)
    (hx : '>' ∉ x)
    (hend : isEndTag (lowerCase t.name) ('<' :: '/' :: (x ++ ['>'])) = true) (u : List Char) :
    LiveMarkup.readEvent ('<' :: (t.inside ++ (s ++ '<' :: '/' :: (x ++ '>' :: u)))) =
      (.whole (.node (.element t.element) (rawContent s)), u) := by
  have hname : t.element.tag.toList = lowerCase t.name := by rw [t.tag_element, String.toList_ofList]
  have hmark : '<' ∉ '/' :: lowerCase t.name := by simpa using not_mem_of_isRaw hraw
  have hscan := scanRaw_append hmark hs (.inr (startsWithLower_of_isEndTag (isEndTag_closed hend u)))
  have hgt : '>' ∉ '<' :: '/' :: x := by simpa using hx
  have htagEnd := scanToTagEnd_append hgt u
  rw [List.cons_append, List.cons_append] at htagEnd
  rw [h.readEvent ht, Element.opened, hclosed, not_isVoid_of_isRaw hraw, if_neg (by decide), if_pos hraw,
    hname, hscan]
  simp only [htagEnd, rawContent]

theorem TagText.Written.readEvent_unclosedRaw (h : t.Written) (ht : t.Tight)
    (hraw : t.element.isRaw = true)
    (hclosed : t.closed = false) (hs : ¬ ('<' :: '/' :: lowerCase t.name) <:+: lowerCase s) :
    LiveMarkup.readEvent ('<' :: (t.inside ++ s)) =
      (.whole (.node (.element t.element) (rawContent s)), []) := by
  have hname : t.element.tag.toList = lowerCase t.name := by rw [t.tag_element, String.toList_ofList]
  have hmark : '<' ∉ '/' :: lowerCase t.name := by simpa using not_mem_of_isRaw hraw
  have hscan := scanRaw_append hmark hs (.inl rfl)
  rw [List.append_nil] at hscan
  rw [h.readEvent ht, Element.opened, hclosed, not_isVoid_of_isRaw hraw, if_neg (by decide), if_pos hraw,
    hname, hscan]
  rfl

/-! ## What bound markup is read as -/

/-- The trees that a text is read as. -/
def textTrees (s : List Char) : List Tree :=
  if s = [] then [] else [.leaf (.text (String.ofList (decodeEntities s)))]

/-- The element that holds a bound text. -/
def wrapper (s : List Char) : Element :=
  { tag := "span", attributes := [("pado-text", String.ofList (trim s))] }

/-- The trees that a text is read as when it is bound. -/
def boundTrees (s : List Char) : List Tree :=
  if hasExpression s then
    textTrees (s.takeWhile isBlank) ++ .leaf (.element (wrapper s)) ::
      textTrees (s.reverse.takeWhile isBlank).reverse
  else textTrees s

theorem foldl_text (hs : '<' ∉ s) (hu : u.head?.all (· = '<') = true) :
    (events (s ++ u)).foldl Builder.step b =
      (events u).foldl Builder.step ((textTrees s).foldl Builder.add b) := by
  unfold textTrees
  split
  · rename_i h0
    rw [h0]
    rfl
  · rename_i hne
    exact foldl_events (List.append_ne_nil_of_left_ne_nil hne u) (readEvent_text hne hs hu)

/-- An element without content is read as a leaf. -/
theorem TagText.Written.foldl_empty (h : t.Written) (ht : t.Tight) (hraw : t.element.isRaw = false)
    (hopen : (t.closed || t.element.isVoid) = false) (htrim : trim t.name = t.name) (u : List Char) :
    (events ('<' :: (t.inside ++ '<' :: '/' :: (t.name ++ '>' :: u)))).foldl Builder.step b =
      (events u).foldl Builder.step (b.add (.leaf (.element t.element))) := by
  have hgt : '>' ∉ t.name := fun hmem => absurd (h.name _ hmem).1 (by decide)
  have hend := readEvent_endTag hgt u
  rw [htrim, ← t.tag_element] at hend
  have hadd := b.stop_foldl_add t.element []
  rw [foldl_events (by simp) (h.readEvent_start ht hraw hopen _), foldl_events (by simp) hend]
  exact congrArg (fun b => (events u).foldl Builder.step b) hadd

/-- A tag without attributes. -/
def TagText.bare (name : List Char) : TagText :=
  { name, attributes := [], gap := [], closed := false }

theorem TagText.written_bare (hletter : s.head?.any Char.isAlpha = true)
    (hs : ∀ c ∈ s, isTagNameEnd c = false ∧ c ∉ tagMarks) : (TagText.bare s).Written :=
  ⟨hletter, hs, List.forall_mem_nil _, List.forall_mem_nil _⟩

theorem TagText.tight_bare (name : List Char) : (TagText.bare name).bound.Tight :=
  ⟨by simp [bare, bound], by simp [bare, bound]⟩

/-- The text of an element is read as the last one of its attributes, if it is not bound already. -/
theorem TagText.element_withText (t : TagText) (s : List Char) : (t.withText s).element =
    { t.element with
      attributes := addNew t.bound.element.attributes ("pado-text", String.ofList (trim s)) } := by
  simp only [element, withText, bound, List.map_append, List.foldl_append, List.map_cons, List.map_nil,
    List.foldl_cons, List.foldl_nil, TagPart.asAttribute, decodeEntities_escapeAll]
  rfl

theorem TagText.element_bare_withText (name s : List Char) : ((TagText.bare name).withText s).element =
    { tag := String.ofList (lowerCase name), attributes := [("pado-text", String.ofList (trim s))] } := by
  rw [element_withText, element, bare, Element.ofTag, String.toList_ofList]
  rfl

/-- The tag of the element that a text is bound to. -/
def spanTag : TagText :=
  .bare "span".toList

theorem written_spanTag : spanTag.Written :=
  TagText.written_bare (by decide) (by simp [isTagNameEnd, isAsciiBlank, tagMarks])

theorem bindText_eq (hs : hasExpression s = true) (u : List Char) : bindText s ++ u =
    s.takeWhile isBlank ++ '<' :: ((spanTag.withText s).inside ++
      '<' :: '/' :: ("span".toList ++ '>' :: ((s.reverse.takeWhile isBlank).reverse ++ u))) := by
  rw [bindText, if_pos hs]
  simp [spanTag, TagText.bare, TagText.withText, TagText.inside, TagText.close, textAttribute,
    TagPart.source]

theorem foldl_bindText (hs : hasExpression s = true ∨ '<' ∉ s) (hu : u.head?.all (· = '<') = true) :
    (events (bindText s ++ u)).foldl Builder.step b =
      (events u).foldl Builder.step ((boundTrees s).foldl Builder.add b) := by
  have hblank : ∀ {a : List Char}, (∀ c ∈ a, isBlank c = true) → '<' ∉ a := fun ha hmem =>
    absurd (ha _ hmem) (by decide)
  have hbefore : '<' ∉ s.takeWhile isBlank := hblank fun c hc => List.mem_takeWhile_imp hc
  have hafter : '<' ∉ (s.reverse.takeWhile isBlank).reverse := hblank fun c hc =>
    List.mem_takeWhile_imp (List.mem_reverse.mp hc)
  have hwrapper : (spanTag.withText s).element = wrapper s := TagText.element_bare_withText _ s
  unfold boundTrees
  split
  · rename_i hexpr
    have hspan := (written_spanTag.withText s).foldl_empty ((TagText.tight_bare _).withText s)
      (by rw [hwrapper]; rfl) (by rw [hwrapper]; rfl) rfl ((s.reverse.takeWhile isBlank).reverse ++ u)
      (b := (textTrees (s.takeWhile isBlank)).foldl Builder.add b)
    rw [hwrapper] at hspan
    rw [bindText_eq hexpr, foldl_text hbefore (by simp), List.foldl_append, List.foldl_cons,
      ← foldl_text hafter hu]
    exact hspan
  · rename_i hexpr
    rw [bindText, if_neg hexpr]
    exact foldl_text (hs.resolve_left hexpr) hu

/-! ## Runs -/

/-- A text up to a tag that is bound without markup in it being lost or found. -/
def IsBindable (s : List Char) : Prop :=
  hasExpression s = true ∨ '<' ∉ s

/-- The pieces without a tag or a text in them. -/
inductive Event.Static : Event → Prop
  | comment (s : String) : Static (.whole (.leaf (.comment s)))
  | doctype (s : String) : Static (.whole (.leaf (.doctype s)))
  | bracket : Static (textEvent ['<'])
  | stop (tag : String) : Static (.stop tag)

/-- How a piece of regular markup changes what was read before it, once the piece is bound. -/
inductive BoundStep (run : List Char → Prop) (tag : TagText → Prop) :
    List Char → Builder → List Char → Builder → Prop
  | text {s rest : List Char} {b : Builder} : run s → rest.head?.all (· = '<') = true →
    BoundStep run tag (s ++ rest) b rest ((boundTrees s).foldl Builder.add b)
  | boundDoctype {s rest : List Char} {b : Builder} : run ('<' :: s) →
    BoundStep run tag ('<' :: (s ++ rest)) b rest
      ((boundTrees s).foldl Builder.add (b.add (.leaf (.text "<"))))
  | static {cs rest : List Char} {event : Event} {b : Builder} : cs ≠ [] → readEvent cs = (event, rest) →
    event.Static → BoundStep run tag cs b rest (b.step event)
  | whole {t : TagText} {rest : List Char} {b : Builder} : t.Written → tag t → t.element.isRaw = false →
    (t.closed || t.element.isVoid) = true →
    BoundStep run tag ('<' :: (t.inside ++ rest)) b rest (b.add (.leaf (.element t.bound.element)))
  | start {t : TagText} {rest : List Char} {b : Builder} : t.Written → tag t → t.element.isRaw = false →
    (t.closed || t.element.isVoid) = false →
    BoundStep run tag ('<' :: (t.inside ++ rest)) b rest (b.step (.start t.bound.element))
  /-- An element whose text is bound in its tag. -/
  | leaf {t : TagText} {s rest : List Char} {b : Builder} : t.Written → tag t → t.element.isRaw = false →
    (t.closed || t.element.isVoid) = false → run s → hasExpression s = true →
    rest.head?.all (· = '<') = true →
    BoundStep run tag ('<' :: (t.inside ++ (s ++ rest))) b rest (b.step (.start (t.withText s).element))
  /-- An element that says itself what its text is bound to. -/
  | bound {t : TagText} {s rest : List Char} {b : Builder} : t.Written → tag t →
    t.element.isRaw = false → (t.closed || t.element.isVoid) = false → t.bindsText = true →
    '<' ∉ s → rest.head?.all (· = '<') = true →
    BoundStep run tag ('<' :: (t.inside ++ (s ++ rest))) b rest
      ((textTrees s).foldl Builder.add (b.step (.start t.bound.element)))
  | raw {t : TagText} {s cs rest : List Char} {b : Builder} : t.Written → tag t →
    t.element.isRaw = true →
    (t.Tight → readEvent ('<' :: (t.inside ++ cs)) =
      (.whole (.node (.element t.element) (rawContent s)), rest)) →
    BoundStep run tag ('<' :: (t.inside ++ cs)) b rest
      (b.add (.node (.element t.bound.element) (rawContent s)))

namespace Regular

variable {run : List Char → Prop} {tag : TagText → Prop}

theorem step_tag {rest : List Char} (ht : t.Written) (htight : t.bound.Tight) (htag : tag t)
    (hraw : t.element.isRaw = false)
    (hopen : t.closed = true ∨ t.element.isVoid = true ∨ t.bindsText = false ∨
      scanToEndTag? (lowerCase t.name) rest = none) (hrest : Regular run tag rest) (b : Builder) :
    ∃ u b', BoundStep run tag ('<' :: (t.inside ++ rest)) b u b' ∧ Regular run tag u ∧ u <:+ rest ∧
      (events (bindMarkup ('<' :: (t.inside ++ rest)))).foldl Builder.step b =
        (events (bindMarkup u)).foldl Builder.step b' := by
  rcases bindMarkup_tag ht htight hraw hopen with hbind | ⟨hclosed, hvoid, s, rest', hscan, hexpr, hbind⟩
  · rcases hwhole : t.closed || t.element.isVoid with _ | _
    · refine ⟨rest, _, .start ht htag hraw hwhole, hrest, List.suffix_rfl, ?_⟩
      rw [hbind, foldl_events (by simp) (ht.bound.readEvent_start htight hraw hwhole _)]
    · refine ⟨rest, _, .whole ht htag hraw hwhole, hrest, List.suffix_rfl, ?_⟩
      rw [hbind, foldl_events (by simp) (ht.bound.readEvent_whole htight hwhole _)]
      rfl
  · obtain ⟨hs, hrest'⟩ := hrest.scanText hscan
    have hne : s ≠ [] := by
      rintro rfl
      cases hexpr
    have hsum := scanText_eq rest.length rest
    have hhead := head_scanText (le_refl rest.length)
    rw [hscan] at hsum hhead
    subst hsum
    have hshut : (t.closed || t.element.isVoid) = false := by rw [hclosed, hvoid, Bool.or_false]
    refine ⟨rest', _, .leaf ht htag hraw hshut (hs hne) hexpr hhead, hrest', List.suffix_append s rest',
      ?_⟩
    rw [hbind, foldl_events (by simp) ((ht.withText s).readEvent_start (htight.withText s) hraw hvoid _)]

/-- Regular markup that is bound is read one piece after the other. -/
theorem step (hrun : ∀ s, run s → IsBindable s) (h : Regular run tag cs) (hne : cs ≠ []) (b : Builder) :
    ∃ rest b', BoundStep run tag cs b rest b' ∧ Regular run tag rest ∧ rest <:+ cs ∧
      rest.length < cs.length ∧ (events (bindMarkup cs)).foldl Builder.step b =
        (events (bindMarkup rest)).foldl Builder.step b' := by
  cases id h with
  | nil => exact absurd rfl hne
  | @text s rest hs0 hscan hs hrest =>
    have hhead := head_scanText (le_refl (s ++ rest).length)
    rw [hscan] at hhead
    refine ⟨rest, _, .text hs hhead, hrest, List.suffix_append s rest, ?_, ?_⟩
    · simpa using List.length_pos_of_ne_nil hs0
    · rw [bindMarkup_text hs0 hscan, foldl_bindText (hrun s hs) (hrest.head_after hscan)]
  | @comment s rest hs hrest =>
    refine ⟨rest, _, .static hne (readEvent_comment hs rest) (.comment _), hrest,
      ⟨"<!--".toList ++ s ++ "-->".toList, by simp⟩, by simp; omega, ?_⟩
    rw [bindMarkup_comment hs, foldl_events (by simp) (readEvent_comment hs _)]
  | @doctype s rest hs hdash hexpr hrest =>
    have hgt : '>' ∉ s := fun h => hs _ h (by simp)
    refine ⟨rest, _, .static hne (readEvent_doctype hgt hdash rest) (.doctype _), hrest,
      ⟨'<' :: '!' :: (s ++ ['>']), by simp⟩, by simp; omega, ?_⟩
    rw [bindMarkup_doctype hs hdash hexpr, foldl_events (by simp) (readEvent_doctype hgt hdash _)]
  | @boundDoctype s rest hhead hopen hscan hexpr hs hrest =>
    have hhead' : (bindText s ++ bindMarkup rest).head? = some '<' := by
      rw [List.head?_append, head_bindText hexpr hhead, Option.some_or]
    refine ⟨rest, _, .boundDoctype hs, hrest, (List.suffix_append s rest).trans (List.suffix_cons _ _),
      ?_, ?_⟩
    · simp
    · rw [bindMarkup_boundDoctype hhead hopen hscan,
        foldl_events (by simp) (readEvent_bracket (by rw [hhead']; rfl)),
        foldl_bindText (.inl hexpr) (hrest.head_after hscan)]
      rfl
  | @endTag s rest hs hrest =>
    refine ⟨rest, _, .static hne (readEvent_endTag hs rest) (.stop _), hrest,
      ⟨'<' :: '/' :: (s ++ ['>']), by simp⟩, by simp; omega, ?_⟩
    rw [bindMarkup_endTag hs, foldl_events (by simp) (readEvent_endTag hs _)]
  | @bracket rest hhead hrest =>
    refine ⟨rest, _, .static hne (readEvent_bracket hhead) .bracket, hrest,
      List.suffix_cons _ _, by simp, ?_⟩
    rw [bindMarkup_bracket hhead, foldl_events (by simp) (readEvent_bracket (hrest.head_bracket hhead))]
  | @tag t rest ht htight htag hraw hopen hrest =>
    obtain ⟨u, b', hstep, hu, hsuffix, heq⟩ := step_tag ht htight htag hraw hopen hrest b
    have hinside := (List.suffix_append t.inside rest).trans (List.suffix_cons '<' _)
    refine ⟨u, b', hstep, hu, hsuffix.trans hinside, ?_, heq⟩
    simpa using Nat.lt_succ_of_le (hsuffix.length_le.trans (Nat.le_add_left _ _))
  | @bound t s rest ht htight htag hraw hclosed hvoid hbinds hs hend hrest =>
    have hshut : (t.closed || t.element.isVoid) = false := by rw [hclosed, hvoid, Bool.or_false]
    refine ⟨rest, _, .bound ht htag hraw hshut hbinds hs (head_of_isEndTag hend), hrest,
      ⟨'<' :: (t.inside ++ s), by simp⟩, by simp; omega, ?_⟩
    rw [bindMarkup_bound ht htight hclosed hvoid hbinds hs hend,
      foldl_events (by simp) (ht.bound.readEvent_start htight hraw hshut _),
      foldl_text hs (hrest.head_endTag hend)]
  | @raw t s x rest ht htight htag hraw hclosed hs hx hend hrest =>
    refine ⟨rest, _, .raw ht htag hraw fun ht' => ht.readEvent_raw ht' hraw hclosed hs hx hend rest,
      hrest, ⟨'<' :: (t.inside ++ (s ++ '<' :: '/' :: (x ++ ['>']))), by simp⟩, by simp; omega, ?_⟩
    rw [bindMarkup_raw ht htight hraw hs hx hend,
      foldl_events (by simp) (ht.bound.readEvent_raw htight hraw hclosed hs hx hend _)]
    rfl
  | @unclosedComment s hs =>
    refine ⟨[], _, .static hne (readEvent_unclosedComment hs) (.comment _), .nil,
      List.nil_suffix, by simp, ?_⟩
    rw [bindMarkup_unclosedComment hs, foldl_events (by simp) (readEvent_unclosedComment hs)]
    rfl
  | @unclosedEndTag s hs =>
    refine ⟨[], _, .static hne (readEvent_unclosedEndTag hs) (.stop _), .nil,
      List.nil_suffix, by simp, ?_⟩
    rw [bindMarkup_unclosedEndTag hs, foldl_events (by simp) (readEvent_unclosedEndTag hs)]
    rfl
  | @unclosedRaw t s ht htight htag hraw hclosed hs =>
    refine ⟨[], _, .raw ht htag hraw fun ht' => ht.readEvent_unclosedRaw ht' hraw hclosed hs, .nil,
      List.nil_suffix, by simp, ?_⟩
    rw [bindMarkup_unclosedRaw ht htight hraw hs,
      foldl_events (by simp) (ht.bound.readEvent_unclosedRaw htight hraw hclosed hs)]
    rfl

/-- What each piece of regular markup keeps holds of all that is read once it is bound. -/
theorem foldl_bindMarkup {motive : List Char → Builder → Prop} (hrun : ∀ s, run s → IsBindable s)
    (hstep : ∀ {cs rest b b'}, BoundStep run tag cs b rest b' → rest <:+ cs →
      motive cs b → motive rest b')
    (h : Regular run tag cs) (hb : motive cs b) :
    motive [] ((events (bindMarkup cs)).foldl Builder.step b) := by
  -- on the length: a tag that takes its text along leaves another rest than the constructor names
  induction hn : cs.length using Nat.strong_induction_on generalizing cs b with
  | _ n ih =>
    subst hn
    rcases eq_or_ne cs [] with rfl | hne
    · exact hb
    · obtain ⟨rest, b', hpiece, hrest, hsuffix, hlt, heq⟩ := h.step hrun hne b
      rw [heq]
      exact ih _ hlt hrest (hstep hpiece hsuffix hb) rfl

end Regular

end LiveMarkup
