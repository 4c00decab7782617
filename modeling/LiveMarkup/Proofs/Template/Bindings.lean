import LiveMarkup.Proofs.Markup.Canonical
import LiveMarkup.Proofs.Template.Interpolated
import LiveMarkup.Proofs.Template.Pieces

/-!
# Bindings are read back

A value that is one group of braces is bound to an attribute, and the text of an element to its
`pado-text` attribute.  Whatever quotes, brackets and references stand in them, the document that is
parsed has the expression and the text as they were written, but for the blanks around them
(`subtree_parse_bindMarkup`).
-/

namespace LiveMarkup

open Text

variable {a b e s u name opening closing : List Char} {t : TagText}

/-! ## Texts up to a tag -/

/-- A group ends with a brace, so it does not reach into a text without one. -/
theorem braceGroup?_of_append (hu : '\x7d' ∉ u) (h : braceGroup? (s ++ u) = some (a, b)) :
    ∃ r, braceGroup? s = some (a, r) ∧ b = r ++ u := by
  obtain ⟨inner, rfl, -, hself⟩ := braceGroup?_eq_some h
  have hgroup : braceGroup? ('\x7b' :: inner ++ ['\x7d']) = some ('\x7b' :: inner ++ ['\x7d'], []) := by
    rw [List.cons_append, braceGroup?, hself]
    rfl
  rcases List.append_eq_append_iff.mp (braceGroup?_eq h) with ⟨r, hr, rfl⟩ | ⟨r, rfl, rfl⟩
  · rcases List.eq_nil_or_concat r with rfl | ⟨r, c, rfl⟩
    · rw [List.append_nil] at hr
      exact ⟨[], hr ▸ hgroup, rfl⟩
    · rw [List.concat_eq_append, ← List.append_assoc] at hr
      obtain rfl := List.singleton_inj.mp (List.append_inj' hr rfl).2
      simp at hu
  · exact ⟨r, braceGroup?_append r hgroup, rfl⟩

/-- A text with its opening brackets inside of groups goes up to the next tag. -/
theorem scanText_of_pieces (hu : '\x7d' ∉ u) (hhead : u.head? = some '<') :
    .plain '<' ∉ Interpolation.pieces s →
      ∀ fuel, (s ++ u).length ≤ fuel → scanText fuel (s ++ u) = (s, u) := by
  induction s using Interpolation.pieces_induction with
  | nil =>
    intro _ fuel _
    obtain ⟨u, rfl⟩ := List.head?_eq_some_iff.mp hhead
    cases fuel <;> rfl
  | plain c cs h ih =>
    rw [Interpolation.pieces_plain h, List.mem_cons, not_or]
    rintro ⟨hc, hcs⟩ fuel hfuel
    obtain ⟨fuel, rfl⟩ := Nat.exists_eq_add_of_le' (show 1 ≤ fuel from Nat.one_le_of_lt hfuel)
    have hlt : c ≠ '<' := fun h => hc (h ▸ rfl)
    rw [List.cons_append] at hfuel ⊢
    have ih := ih hcs
    rw [scanText, if_neg hlt]
    rcases hgroup : braceGroup? (c :: (cs ++ u)) with _ | ⟨group, rest⟩
    · simp only [ih fuel (Nat.le_of_succ_le_succ hfuel)]
    · -- an empty group, the closing brace of which is read on its own otherwise
      obtain ⟨r, hr, rfl⟩ := braceGroup?_of_append (s := c :: cs) hu hgroup
      obtain rfl := h _ _ hr
      obtain ⟨rfl, hcs⟩ : c = '\x7b' ∧ cs = '\x7d' :: r := List.cons.inj (braceGroup?_eq hr)
      subst hcs
      have hnext := ih (fuel + 1) (Nat.le_of_succ_le hfuel)
      rw [List.cons_append, scanText, if_neg (by decide), braceGroup?_eq_none (by decide)] at hnext
      simp only [Prod.mk.injEq, List.cons.injEq, true_and] at hnext
      simp [hnext]
  | token inner rest h ih =>
    rw [Interpolation.pieces_token h, List.mem_cons, not_or]
    rintro ⟨-, hrest⟩ fuel hfuel
    obtain ⟨fuel, rfl⟩ := Nat.exists_eq_add_of_le' (show 1 ≤ fuel from Nat.one_le_of_lt hfuel)
    have hsum : '\x7b' :: (inner ++ '\x7d' :: rest) ++ u = '\x7b' :: (inner ++ '\x7d' :: (rest ++ u)) := by
      simp
    rw [hsum] at hfuel ⊢
    have hlen : (rest ++ u).length ≤ fuel := by
      simp only [List.length_cons, List.length_append] at hfuel ⊢
      omega
    rw [scanText, if_neg (by decide), h.braceGroup?]
    simp [ih hrest fuel hlen]

/-! ## Elements without content -/

/-- Markup that is bound to an element without content is parsed as this element. -/
theorem TagText.Written.subtree_parse_empty (h : t.Written) (ht : t.Tight) (hraw : t.element.isRaw = false)
    (hopen : (t.closed || t.element.isVoid) = false) (htrim : trim t.name = t.name) :
    (Document.parse ('<' :: (t.inside ++ '<' :: '/' :: (t.name ++ ['>'])))).subtree Document.root =
      .node .root [.leaf (.element t.element)] := by
  rw [Document.subtree_parse, Tree.parse, Tree.ofEvents, h.foldl_empty ht hraw hopen htrim]
  rfl

/-- An element without content is bound in its tag alone. -/
theorem TagText.Written.subtree_parse_bound (h : t.Written) (ht : t.bound.Tight)
    (hraw : t.element.isRaw = false) (hopen : (t.closed || t.element.isVoid) = false)
    (hbinds : t.bindsText = false) (htrim : trim t.name = t.name) :
    (Document.parse (bindMarkup ('<' :: (t.inside ++ '<' :: '/' :: (t.name ++ ['>']))))).subtree
      Document.root = .node .root [.leaf (.element t.bound.element)] := by
  have hgt : '>' ∉ t.name := fun hmem => absurd (h.name _ hmem).1 (by decide)
  rcases bindMarkup_tag h ht hraw (.inr (.inr (.inl hbinds))) with hbind | ⟨-, -, s, rest, hscan, hexpr, -⟩
  · rw [hbind, bindMarkup_endTag hgt]
    exact h.bound.subtree_parse_empty ht hraw hopen htrim
  · cases hscan
    cases hexpr

/-! ## Attributes -/

/-- The braces around a text are one group. -/
def InGroup (e : List Char) : Prop :=
  braceGroup? ('\x7b' :: (e ++ ['\x7d'])) = some ('\x7b' :: (e ++ ['\x7d']), [])

instance (e : List Char) : Decidable (InGroup e) :=
  inferInstanceAs (Decidable (_ = _))

theorem InGroup.singleExpression? (h : InGroup e) :
    LiveMarkup.singleExpression? ('\x7b' :: (e ++ ['\x7d'])) = some e := by
  have hopen : ¬ isBlank '\x7b' = true := by decide
  have hclose : ¬ isBlank '\x7d' = true := by decide
  have htrim : trim ('\x7b' :: (e ++ ['\x7d'])) = '\x7b' :: (e ++ ['\x7d']) := by
    rw [trim, List.dropWhile_cons_of_neg hopen, ← List.cons_append, List.reverse_concat,
      List.dropWhile_cons_of_neg hclose, ← List.reverse_concat, List.reverse_reverse]
  rw [LiveMarkup.singleExpression?, htrim, h]
  simp

theorem plainName_of_isTagName (h : isTagName name = true) : PlainName name := by
  have hcanonical := isCanonicalChar_of_isTagName h
  refine ⟨fun h0 => ?_, fun c hc => ⟨(isCanonicalChar_spec (hcanonical c hc)).1, ?_⟩⟩
  · rw [h0] at h
    cases h
  · have hc := hcanonical c hc
    simp only [tagMarks, List.mem_cons, List.not_mem_nil, or_false, ← not_or]
    rintro (rfl | rfl | rfl | rfl | rfl) <;> exact absurd hc (by decide)

theorem lowerCase_of_isTagName (h : isTagName name = true) : lowerCase name = name :=
  lowerCase_eq_self fun c hc => (isCanonicalChar_spec (isCanonicalChar_of_isTagName h c hc)).2.2.1

theorem not_startsWith_lowerCase {m : List Char} (hname : isTagName name = true) (h : ¬ m <+: name) :
    ¬ startsWith m (lowerCase name) = true := by
  rw [lowerCase_of_isTagName hname, startsWith_iff]
  exact fun ⟨r, hr⟩ => h ⟨r, hr.symm⟩

/-- A value in braces is bound to an attribute of its own. -/
theorem TagPart.bound_group {gap link : List Char} (hname : isTagName name = true)
    (hon : ¬ "on".toList <+: name) (hpado : ¬ bindingStart <+: name) (he : InGroup e) :
    (assigned gap name link opening ('\x7b' :: (e ++ ['\x7d'])) closing).bound =
      assigned gap (bindingStart ++ name) ['='] ['"'] (escapeQuote (trim e)) ['"'] := by
  rw [bound, he.singleExpression?]
  simp only
  rw [if_neg (not_startsWith_lowerCase hname hon), if_neg (not_startsWith_lowerCase hname hpado)]

/-- An attribute that is bound to an expression. -/
def bindingPart (name e : List Char) : TagPart :=
  .assigned [' '] (bindingStart ++ name) ['='] ['"'] (escapeQuote (trim e)) ['"']

theorem asAttribute_bindingPart (hname : isTagName name = true) (e : List Char) :
    (bindingPart name e).asAttribute = ("pado-" ++ String.ofList name, String.ofList (trim e)) := by
  have hlower : lowerCase (bindingStart ++ name) = bindingStart ++ name := by
    rw [lowerCase, List.map_append, ← lowerCase, ← lowerCase, lowerCase_of_isTagName hname]
    rfl
  rw [bindingPart, TagPart.asAttribute, hlower, decodeEntities_escapeQuote, String.ofList_append]
  rfl

theorem subtree_parse_attribute (hname : isTagName name = true) (hon : ¬ "on".toList <+: name)
    (hpado : ¬ bindingStart <+: name) (he : InGroup e)
    (hvalue : IsValue opening ('\x7b' :: (e ++ ['\x7d'])) closing) :
    (Document.parse (bindMarkup ("<div ".toList ++ (name ++ '=' :: (opening ++ '\x7b' ::
      (e ++ '\x7d' :: (closing ++ "></div>".toList))))))).subtree Document.root =
      .node .root [.leaf (.element
        { tag := "div", attributes := [("pado-" ++ String.ofList name, String.ofList (trim e))] })] := by
  set t : TagText := ⟨"div".toList,
    [.assigned [' '] name ['='] opening ('\x7b' :: (e ++ ['\x7d'])) closing], [], false⟩
  have hwritten : t.Written :=
    ⟨rfl, by simp [t, isTagNameEnd, isAsciiBlank, tagMarks],
      List.forall_mem_singleton.mpr ⟨isGap_space, plainName_of_isTagName hname, isLink_equals, hvalue⟩,
      List.forall_mem_nil _⟩
  have hbound : t.bound = ⟨"div".toList, [bindingPart name e], [], false⟩ := by
    rw [TagText.bound, List.map_singleton, TagPart.bound_group hname hon hpado he]
    rfl
  have htight : t.bound.Tight := by
    rw [hbound]
    exact ⟨by simp [bindingPart, TagPart.Tight], by simp⟩
  have helement : t.bound.element =
      { tag := "div", attributes := [("pado-" ++ String.ofList name, String.ofList (trim e))] } := by
    have hne : "pado-" ++ String.ofList name ≠ "" := by simp
    simp only [hbound, TagText.element, List.map_singleton, List.foldl_cons, List.foldl_nil,
      asAttribute_bindingPart hname, addNew, hne]
    rfl
  have hsource : "<div ".toList ++ (name ++ '=' :: (opening ++ '\x7b' ::
      (e ++ '\x7d' :: (closing ++ "></div>".toList)))) =
        '<' :: (t.inside ++ '<' :: '/' :: (t.name ++ ['>'])) := by
    simp [t, TagText.inside, TagText.close, TagPart.source]
  have hdiv : t.element.tag = "div" := t.tag_element
  have hraw : t.element.isRaw = false := by rw [Element.isRaw, hdiv]; rfl
  have hvoid : t.element.isVoid = false := by rw [Element.isVoid, hdiv]; rfl
  have hbinds : t.bindsText = false := by
    have hne : name ≠ textBinding := fun h => hpado (h ▸ by decide)
    simp [t, TagText.bindsText, TagPart.bindsText, lowerCase_of_isTagName hname, hne]
  rw [hsource, hwritten.subtree_parse_bound htight hraw hvoid hbinds rfl, helement]

/-! ## Contents -/

/-- The text of an element is bound in its tag. -/
theorem bindMarkup_leaf (h : t.Written) (ht : t.bound.Tight) (hraw : t.element.isRaw = false)
    (hclosed : t.closed = false) (hvoid : t.element.isVoid = false) (hbinds : t.bindsText = false)
    (hscan : scanText (s ++ u).length (s ++ u) = (s, u)) (hexpr : hasExpression s = true)
    (hend : isEndTag (lowerCase t.name) u = true) :
    bindMarkup ('<' :: (t.inside ++ (s ++ u))) = '<' :: ((t.withText s).inside ++ bindMarkup u) := by
  have htag := t.tag_element
  simp only [Element.isRaw, Element.isVoid, htag, decide_eq_false_iff_not] at hraw hvoid
  rw [bindMarkup_element h ht, bindElement]
  simp only [TagText.startTag, if_neg hraw, hclosed, hvoid, hbinds, hscan, hend, hexpr]
  simp [TagText.addAttribute_bound hclosed]

theorem subtree_parse_content (hs : hasExpression s = true) (hlt : .plain '<' ∉ Interpolation.pieces s) :
    (Document.parse (bindMarkup ("<p>".toList ++ (s ++ "</p>".toList)))).subtree Document.root =
      .node .root [.leaf (.element
        { tag := "p", attributes := [("pado-text", String.ofList (trim s))] })] := by
  set t := TagText.bare ['p']
  have hwritten : t.Written :=
    TagText.written_bare (by decide) (by simp [isTagNameEnd, isAsciiBlank, tagMarks])
  have htight : t.bound.Tight := TagText.tight_bare _
  have hp : t.element.tag = "p" := t.tag_element
  have hraw : t.element.isRaw = false := by rw [Element.isRaw, hp]; rfl
  have hvoid : t.element.isVoid = false := by rw [Element.isVoid, hp]; rfl
  have hscan := scanText_of_pieces (u := "</p>".toList) (by decide) rfl hlt _ le_rfl
  have hbind := bindMarkup_leaf hwritten htight hraw rfl hvoid rfl hscan hs rfl
  have hend : bindMarkup "</p>".toList = "</p>".toList := bindMarkup_endTag (s := ['p']) (by decide) []
  rw [hend] at hbind
  have hsource : "<p>".toList ++ (s ++ "</p>".toList) = '<' :: (t.inside ++ (s ++ "</p>".toList)) := rfl
  have hread := (hwritten.withText s).subtree_parse_empty (htight.withText s) hraw hvoid rfl
  rw [hsource, hbind]
  rw [TagText.element_bare_withText] at hread
  exact hread

/-- An attribute with an expression for its value is bound to one with the expression, and the text of an
element to one with the text.  They are read back as they were written, but for the blanks around them,
whatever quotes, brackets and references stand in them. -/
theorem subtree_parse_bindMarkup :
    (∀ name e : List Char, isTagName name = true → ¬ "on".toList <+: name →
      ¬ "pado-".toList <+: name → InGroup e →
      let bound : Element :=
        { tag := "div", attributes := [("pado-" ++ String.ofList name, String.ofList (trim e))] }
      (Document.parse (bindMarkup ("<div ".toList ++ name ++ "=\x7b".toList ++ e ++
        "\x7d></div>".toList))).subtree Document.root = .node .root [.leaf (.element bound)] ∧
      ('"' ∉ e → (Document.parse (bindMarkup ("<div ".toList ++ name ++ "=\"\x7b".toList ++ e ++
        "\x7d\"></div>".toList))).subtree Document.root = .node .root [.leaf (.element bound)])) ∧
    ∀ s : List Char, hasExpression s = true → .plain '<' ∉ Interpolation.pieces s →
      (Document.parse (bindMarkup ("<p>".toList ++ s ++ "</p>".toList))).subtree Document.root =
        .node .root [.leaf (.element
          { tag := "p", attributes := [("pado-text", String.ofList (trim s))] })] := by
  refine ⟨fun name e hname hon hpado he => ⟨?_, fun hq => ?_⟩, fun s hs hlt => ?_⟩
  · have := subtree_parse_attribute hname hon hpado he (.group he)
    simpa using this
  · have := subtree_parse_attribute hname hon hpado he (.quoted (.inl rfl) (by simpa using hq))
    simpa using this
  · rw [List.append_assoc]
    exact subtree_parse_content hs hlt

/-- Quotes, brackets, references and braces in strings, with blanks around them, and a brace that is not
closed. -/
theorem subtree_parse_bindMarkup_marks :
    (Document.parse (bindMarkup
      "<div data-x9=\x7b f(\"a>\", \x7bx: '<&amp;\x7d'\x7d) \x7d></div>".toList)).subtree Document.root =
        .node .root [.leaf (.element
          { tag := "div", attributes := [("pado-data-x9", "f(\"a>\", \x7bx: '<&amp;\x7d'\x7d)")] })] ∧
    (Document.parse (bindMarkup
      "<div t=\"\x7b'\x7d' > \x60<b>\x60\x7d\"></div>".toList)).subtree Document.root =
        .node .root [.leaf (.element
          { tag := "div", attributes := [("pado-t", "'\x7d' > \x60<b>\x60")] })] ∧
    (Document.parse (bindMarkup
      "<p>\n &lt; \x7ba < '\x7d' \x7d &amp; \x7b\x7d \x7bb\" </p>".toList)).subtree Document.root =
        .node .root [.leaf (.element
          { tag := "p", attributes := [("pado-text", "&lt; \x7ba < '\x7d' \x7d &amp; \x7b\x7d \x7bb\"")] })] := by
  obtain ⟨hattribute, hcontent⟩ := subtree_parse_bindMarkup
  obtain ⟨h1, -⟩ := hattribute "data-x9".toList " f(\"a>\", \x7bx: '<&amp;\x7d'\x7d) ".toList (by decide)
    (by decide) (by decide) (by decide +kernel)
  obtain ⟨-, h2⟩ := hattribute ['t'] "'\x7d' > \x60<b>\x60".toList (by decide) (by decide) (by decide)
    (by decide +kernel)
  have h3 := hcontent "\n &lt; \x7ba < '\x7d' \x7d &amp; \x7b\x7d \x7bb\" ".toList (by decide +kernel)
    (by decide +kernel)
  exact ⟨h1, h2 (by decide), h3⟩

end LiveMarkup
