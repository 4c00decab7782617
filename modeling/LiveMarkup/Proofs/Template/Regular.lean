import LiveMarkup.Proofs.Template.Tags

/-!
# Regular markup

Markup is regular (`Regular`) if each piece of it ends at the same place when it is bound and when it
is parsed.  One lemma for each kind of piece says what it is bound to (`bindMarkup_text`,
`bindMarkup_comment`, `bindMarkup_tag` and their likes).
-/

namespace LiveMarkup

open Text

variable {a cs s x rest : List Char} {c : Char} {t : TagText}

/-- Markup whose pieces end at the same places when they are bound and when they are parsed, given
what texts up to a tag and what tags there can be. -/
inductive Regular (run : List Char → Prop) (tag : TagText → Prop) : List Char → Prop
  | nil : Regular run tag []
  | text {s rest : List Char} : s ≠ [] → scanText (s ++ rest).length (s ++ rest) = (s, rest) → run s →
    Regular run tag rest → Regular run tag (s ++ rest)
  | comment {s rest : List Char} : ¬ "-->".toList <:+: s → Regular run tag rest →
    Regular run tag ("<!--".toList ++ (s ++ ("-->".toList ++ rest)))
  /-- The text after a doctype must not have expressions, or else the doctype is bound with them. -/
  | doctype {s rest : List Char} : (∀ c ∈ s, c ∉ ['<', '>', '\x7b']) → ¬ "--".toList <+: s →
    hasExpression (scanText rest.length rest).1 = false → Regular run tag rest →
    Regular run tag ('<' :: '!' :: (s ++ '>' :: rest))
  /-- An expression in the text after a doctype is bound together with the doctype. -/
  | boundDoctype {s rest : List Char} : s.head? = some '!' → ¬ "!--".toList <+: s ++ rest →
    scanText (s ++ rest).length (s ++ rest) = (s, rest) → hasExpression s = true → run ('<' :: s) →
    Regular run tag rest → Regular run tag ('<' :: (s ++ rest))
  | endTag {s rest : List Char} : '>' ∉ s → Regular run tag rest →
    Regular run tag ('<' :: '/' :: (s ++ '>' :: rest))
  | bracket {rest : List Char} : rest.head?.all (fun c => !c.isAlpha && c ≠ '/' && c ≠ '!') = true →
    Regular run tag rest → Regular run tag ('<' :: rest)
  /-- A tag after which markup comes. -/
  | tag {t : TagText} {rest : List Char} : t.Written → t.bound.Tight → tag t → t.element.isRaw = false →
    (t.closed = true ∨ t.element.isVoid = true ∨ t.bindsText = false ∨
      scanToEndTag? (lowerCase t.name) rest = none) → Regular run tag rest →
    Regular run tag ('<' :: (t.inside ++ rest))
  /-- An element whose text is bound has nothing but text in it. -/
  | bound {t : TagText} {s rest : List Char} : t.Written → t.bound.Tight → tag t →
    t.element.isRaw = false → t.closed = false → t.element.isVoid = false → t.bindsText = true → '<' ∉ s →
    isEndTag (lowerCase t.name) rest = true → Regular run tag rest →
    Regular run tag ('<' :: (t.inside ++ (s ++ rest)))
  /-- A script or a stylesheet does not close itself, and its end tag is not in it. -/
  | raw {t : TagText} {s x rest : List Char} : t.Written → t.bound.Tight → tag t →
    t.element.isRaw = true → t.closed = false → ¬ ('<' :: '/' :: lowerCase t.name) <:+: lowerCase s → '>' ∉ x →
    isEndTag (lowerCase t.name) ('<' :: '/' :: (x ++ ['>'])) = true → Regular run tag rest →
    Regular run tag ('<' :: (t.inside ++ (s ++ '<' :: '/' :: (x ++ '>' :: rest))))
  | unclosedComment {s : List Char} : ¬ "-->".toList <:+: s → Regular run tag ("<!--".toList ++ s)
  | unclosedEndTag {s : List Char} : '>' ∉ s → Regular run tag ('<' :: '/' :: s)
  | unclosedRaw {t : TagText} {s : List Char} : t.Written → t.bound.Tight → tag t →
    t.element.isRaw = true → t.closed = false → ¬ ('<' :: '/' :: lowerCase t.name) <:+: lowerCase s →
    Regular run tag ('<' :: (t.inside ++ s))

/-! ## Texts -/

theorem head_scanText : ∀ {fuel : Nat} {cs : List Char}, cs.length ≤ fuel →
    (scanText fuel cs).2.head?.all (· = '<') = true
  | 0, cs, h => by
    obtain rfl := List.length_eq_zero_iff.mp (Nat.le_zero.mp h)
    rfl
  | fuel + 1, [], _ => rfl
  | fuel + 1, c :: cs, h => by
    rw [scanText]
    split
    · rename_i hc
      simpa using hc
    · split
      · rename_i group rest hg
        obtain ⟨r, rfl⟩ := exists_of_braceGroup? hg
        have hlen := congrArg List.length (braceGroup?_eq hg)
        simp only [List.length_append, List.length_cons] at h hlen
        exact head_scanText (by omega)
      · exact head_scanText (Nat.le_of_succ_le_succ h)

theorem pieces_cons (hc : c ≠ '\x7b') (cs : List Char) :
    Interpolation.pieces (c :: cs) = .plain c :: Interpolation.pieces cs := by
  rw [Interpolation.pieces, List.length_cons, piecesFrom, braceGroup?_eq_none hc]
  rfl

/-- Characters that open no group hold no expression. -/
theorem hasExpression_append (ha : '\x7b' ∉ a) (s : List Char) :
    hasExpression (a ++ s) = hasExpression s := by
  induction a with
  | nil => rfl
  | cons c a ih =>
    rw [List.mem_cons, not_or] at ha
    rw [← ih ha.2, List.cons_append, hasExpression, Interpolation.expressions,
      pieces_cons (Ne.symm ha.1)]
    rfl

theorem hasExpression_eq_false (h : '\x7b' ∉ s) : hasExpression s = false := by
  rw [← List.append_nil s, hasExpression_append h]
  rfl

/-! ## What the pieces are bound to -/

theorem bindMarkup_text (hne : s ≠ []) (hscan : scanText (s ++ rest).length (s ++ rest) = (s, rest)) :
    bindMarkup (s ++ rest) = bindText s ++ bindMarkup rest := by
  obtain ⟨c, s, rfl⟩ := List.exists_cons_of_ne_nil hne
  have hc : c ≠ '<' := by
    rintro rfl
    rw [List.cons_append, List.length_cons, scanText, if_pos rfl] at hscan
    simp at hscan
  have hpiece := bindPiece_text hc (s ++ rest)
  rw [← List.cons_append, hscan] at hpiece
  rw [bindMarkup_eq (by simp), hpiece]

theorem bindMarkup_comment (h : ¬ "-->".toList <:+: s) (rest : List Char) :
    bindMarkup ("<!--".toList ++ (s ++ ("-->".toList ++ rest))) =
      "<!--".toList ++ (s ++ ("-->".toList ++ bindMarkup rest)) := by
  have hopen : "<!--".toList = ['<', '!', '-', '-'] := by decide
  have hpiece : bindPiece ("<!--".toList ++ (s ++ ("-->".toList ++ rest))) =
      ("<!--".toList ++ s ++ "-->".toList, rest) := by
    rw [hopen]
    simp only [List.cons_append, List.nil_append]
    rw [bindPiece, cut?_append_of_not_infix h, hopen]
    rfl
  rw [bindMarkup_eq (by simp), hpiece]
  simp

theorem bindMarkup_unclosedComment (h : ¬ "-->".toList <:+: s) :
    bindMarkup ("<!--".toList ++ s) = "<!--".toList ++ s := by
  have hopen : "<!--".toList = ['<', '!', '-', '-'] := by decide
  have hpiece : bindPiece ("<!--".toList ++ s) = ("<!--".toList ++ s, []) := by
    rw [hopen]
    simp only [List.cons_append, List.nil_append]
    rw [bindPiece, cut?_eq_none h]
  rw [bindMarkup_eq (by simp), hpiece]
  exact List.append_nil _

theorem bindMarkup_endTag (h : '>' ∉ s) (rest : List Char) :
    bindMarkup ('<' :: '/' :: (s ++ '>' :: rest)) = '<' :: '/' :: (s ++ '>' :: bindMarkup rest) := by
  rw [bindMarkup_eq (by simp), bindPiece_endTag h]
  simp

theorem bindMarkup_unclosedEndTag (h : '>' ∉ s) : bindMarkup ('<' :: '/' :: s) = '<' :: '/' :: s := by
  obtain ⟨htake, hdrop⟩ := takeWhile_ne_all h
  have hpiece : bindPiece ('<' :: '/' :: s) = ('<' :: '/' :: s, []) := by
    rw [bindPiece, htake, hdrop]
    simp
  rw [bindMarkup_eq (by simp), hpiece]
  exact List.append_nil _

theorem bindMarkup_bracket (h : rest.head?.all (fun c => !c.isAlpha && c ≠ '/' && c ≠ '!') = true) :
    bindMarkup ('<' :: rest) = '<' :: bindMarkup rest := by
  have hhead : ∀ c ∈ rest.head?, c ≠ '/' ∧ c.isAlpha = false ∧ c ≠ '!' := by
    intro c hc
    rw [hc] at h
    simp at h
    exact ⟨h.1.2, h.1.1, h.2⟩
  rw [bindMarkup_eq (by simp), bindPiece_bracket fun c hc => ⟨(hhead c hc).1, (hhead c hc).2.1⟩]
  · rfl
  · rintro ⟨r, rfl⟩
    exact (hhead '!' rfl).2.2 rfl

theorem scanText_append (ha : ∀ c ∈ a, c ≠ '<' ∧ c ≠ '\x7b') (u : List Char) :
    scanText (a ++ u).length (a ++ u) = (a ++ (scanText u.length u).1, (scanText u.length u).2) := by
  induction a with
  | nil => rfl
  | cons c a ih =>
    obtain ⟨⟨hlt, hbrace⟩, ha⟩ := List.forall_mem_cons.mp ha
    rw [List.cons_append, List.length_cons, scanText, if_neg hlt, braceGroup?_eq_none hbrace]
    simp only
    rw [ih ha]
    rfl

/-- A text without expressions stays as it is. -/
theorem bindMarkup_of_not_hasExpression (h : hasExpression (scanText cs.length cs).1 = false) :
    bindMarkup cs = (scanText cs.length cs).1 ++ bindMarkup (scanText cs.length cs).2 := by
  have hsum := scanText_eq cs.length cs
  obtain ⟨s, rest, hscan⟩ : ∃ s rest, scanText cs.length cs = (s, rest) := ⟨_, _, rfl⟩
  rw [hscan] at h hsum ⊢
  rcases eq_or_ne s [] with rfl | hne
  · rw [hsum]
    rfl
  · rw [hsum] at hscan ⊢
    rw [bindMarkup_text hne hscan, bindText, h, if_neg (by decide)]

theorem bindMarkup_doctype (hs : ∀ c ∈ s, c ∉ ['<', '>', '\x7b']) (hdash : ¬ "--".toList <+: s)
    (hrest : hasExpression (scanText rest.length rest).1 = false) :
    bindMarkup ('<' :: '!' :: (s ++ '>' :: rest)) = '<' :: '!' :: (s ++ '>' :: bindMarkup rest) := by
  have hplain : ∀ c ∈ '!' :: s ++ ['>'], c ≠ '<' ∧ c ≠ '\x7b' := by
    intro c hc
    rcases List.mem_append.mp hc with hc | hc
    · rcases List.mem_cons.mp hc with rfl | hc
      · decide
      · have := hs c hc
        simp only [List.mem_cons, List.not_mem_nil, or_false, not_or] at this
        exact ⟨this.1, this.2.2⟩
    · obtain rfl := List.mem_singleton.mp hc
      decide
  have hsum : '!' :: (s ++ '>' :: rest) = '!' :: s ++ ['>'] ++ rest := by simp
  have hopen : ¬ "!--".toList <+: '!' :: (s ++ '>' :: rest) := by
    rintro ⟨r, hr⟩
    have hr : '-' :: '-' :: r = s ++ '>' :: rest := (List.cons.inj hr).2
    rcases s with _ | ⟨c, _ | ⟨d, s⟩⟩
    · exact absurd (List.cons.inj hr).1 (by decide)
    · exact absurd (List.cons.inj (List.cons.inj hr).2).1 (by decide)
    · refine hdash ⟨s, ?_⟩
      rw [← (List.cons.inj hr).1, ← (List.cons.inj (List.cons.inj hr).2).1]
      rfl
  have hscan := scanText_append hplain rest
  have hexpr : hasExpression
      (scanText ('!' :: s ++ ['>'] ++ rest).length ('!' :: s ++ ['>'] ++ rest)).1 = false := by
    rw [hscan, hasExpression_append fun h => (hplain _ h).2 rfl]
    exact hrest
  rw [bindMarkup_eq (by simp), bindPiece_bracket (by simp) hopen, hsum,
    bindMarkup_of_not_hasExpression hexpr,
    hscan, bindMarkup_of_not_hasExpression hrest]
  simp

theorem head_bindText (hs : hasExpression s = true) (hhead : s.head? = some '!') :
    (bindText s).head? = some '<' := by
  obtain ⟨s, rfl⟩ := List.head?_eq_some_iff.mp hhead
  rw [bindText, if_pos hs]
  rfl

theorem bindMarkup_boundDoctype (hhead : s.head? = some '!') (hopen : ¬ "!--".toList <+: s ++ rest)
    (hscan : scanText (s ++ rest).length (s ++ rest) = (s, rest)) :
    bindMarkup ('<' :: (s ++ rest)) = '<' :: (bindText s ++ bindMarkup rest) := by
  have hne : s ≠ [] := by
    rintro rfl
    cases hhead
  have hhead' : ∀ c ∈ (s ++ rest).head?, c ≠ '/' ∧ c.isAlpha = false := by
    rw [List.head?_append_of_ne_nil _ hne, hhead]
    simp
  rw [bindMarkup_eq (by simp), bindPiece_bracket hhead' hopen, bindMarkup_text hne hscan]
  rfl

theorem TagText.tag_element (t : TagText) : t.element.tag = String.ofList (lowerCase t.name) := by
  rw [TagText.element, Element.ofTag, String.toList_ofList]

/-- The tag that is scanned where a tag is written. -/
def TagText.startTag (t : TagText) : StartTag where
  name := lowerCase t.name
  source := '<' :: t.bound.inside
  selfClosing := t.closed
  bindsText := t.bindsText

theorem bindMarkup_element (h : t.Written) (ht : t.bound.Tight) (rest : List Char) :
    bindMarkup ('<' :: (t.inside ++ rest)) =
      (bindElement t.startTag rest).1 ++ bindMarkup (bindElement t.startTag rest).2 := by
  rw [bindMarkup_eq (by simp), bindPiece_tag h.isTag, h.ofSource ht]
  rfl

/-- A tag after which markup comes is bound alone, or with the text after it. -/
theorem bindMarkup_tag (h : t.Written) (ht : t.bound.Tight) (hraw : t.element.isRaw = false)
    (hopen : t.closed = true ∨ t.element.isVoid = true ∨ t.bindsText = false ∨
      scanToEndTag? (lowerCase t.name) rest = none) :
    bindMarkup ('<' :: (t.inside ++ rest)) = '<' :: (t.bound.inside ++ bindMarkup rest) ∨
      t.closed = false ∧ t.element.isVoid = false ∧ ∃ s rest', scanText rest.length rest = (s, rest') ∧
        hasExpression s = true ∧
        bindMarkup ('<' :: (t.inside ++ rest)) = '<' :: ((t.withText s).inside ++ bindMarkup rest') := by
  have htag := t.tag_element
  rw [bindMarkup_element h ht, bindElement]
  simp only [Element.isRaw, Element.isVoid, htag, decide_eq_false_iff_not,
    decide_eq_true_eq] at hraw hopen ⊢
  rw [TagText.startTag]
  simp only
  rw [if_neg hraw]
  split
  · exact .inl rfl
  · rename_i hvoid
    simp only [Bool.or_eq_true, decide_eq_true_eq, not_or, Bool.not_eq_true] at hvoid
    split
    · rename_i hbinds
      have hnone : scanToEndTag? (lowerCase t.name) rest = none := by
        rcases hopen with h | h | h | h
        exacts [absurd h (by simp [hvoid.1]), absurd h hvoid.2, absurd hbinds (by simp [h]), h]
      rw [hnone]
      exact .inl (by simp)
    · obtain ⟨s, rest', hscan⟩ : ∃ s rest', scanText rest.length rest = (s, rest') := ⟨_, _, rfl⟩
      simp only [hscan]
      split
      · rename_i hleaf
        rw [Bool.and_eq_true] at hleaf
        refine .inr ⟨hvoid.1, hvoid.2, s, rest', rfl, hleaf.2, ?_⟩
        rw [TagText.addAttribute_bound hvoid.1]
        rfl
      · exact .inl rfl

theorem scanToEndTag?_of_not_mem {name : List Char} (hs : '<' ∉ s) (hend : isEndTag name rest = true) :
    scanToEndTag? name (s ++ rest) = some (s, rest) := by
  induction s with
  | nil =>
    rcases rest with _ | ⟨c, rest⟩
    · cases hend
    · rw [List.nil_append, scanToEndTag?, if_pos hend]
  | cons c s ih =>
    rw [List.mem_cons, not_or] at hs
    have hno : ¬ isEndTag name (c :: (s ++ rest)) = true := by
      simp [isEndTag, after?, hs.1]
    rw [List.cons_append, scanToEndTag?, if_neg hno, ih hs.2]
    rfl

theorem bindMarkup_bound (h : t.Written) (ht : t.bound.Tight) (hclosed : t.closed = false)
    (hvoid : t.element.isVoid = false) (hbinds : t.bindsText = true) (hs : '<' ∉ s)
    (hend : isEndTag (lowerCase t.name) rest = true) :
    bindMarkup ('<' :: (t.inside ++ (s ++ rest))) =
      '<' :: (t.bound.inside ++ (s ++ bindMarkup rest)) := by
  have htag := t.tag_element
  have hscan : scanToEndTag? t.startTag.name (s ++ rest) = some (s, rest) :=
    scanToEndTag?_of_not_mem hs hend
  have hshut : ¬ t.startTag.IsOpen := by
    simp only [Element.isVoid, htag, decide_eq_false_iff_not] at hvoid
    simp [StartTag.IsOpen, TagText.startTag, hclosed, hbinds, hvoid]
  rw [bindMarkup_element h ht, bindElement_of_not_isOpen hshut hscan]
  simp [TagText.startTag]

theorem startsWithLower_of_isEndTag {name : List Char} (h : isEndTag name cs = true) :
    startsWithLower ('<' :: '/' :: name) cs = true := by
  rw [isEndTag] at h
  split at h
  · cases h
  · rename_i rest hafter
    obtain rfl := after?_eq_some_iff.mp hafter
    rw [Bool.and_eq_true] at h
    exact h.1

theorem head_of_isEndTag {name : List Char} (h : isEndTag name cs = true) :
    cs.head?.all (· = '<') = true := by
  rw [isEndTag] at h
  split at h
  · cases h
  · rename_i r hafter
    rw [after?_eq_some_iff.mp hafter]
    rfl

theorem scanToEndTag?_of_not_infix {name : List Char} (hname : '<' ∉ name)
    (hs : ¬ ('<' :: '/' :: name) <:+: lowerCase s) (hend : isEndTag name rest = true) :
    scanToEndTag? name (s ++ rest) = some (s, rest) := by
  have hmark : '<' ∉ '/' :: name := by simpa using hname
  induction s with
  | nil =>
    rcases rest with _ | ⟨c, rest⟩
    · cases hend
    · rw [List.nil_append, scanToEndTag?, if_pos hend]
  | cons c s ih =>
    have hno : ¬ isEndTag name (c :: (s ++ rest)) = true := fun h =>
      not_startsWithLower_append hmark hs (.inr (startsWithLower_of_isEndTag hend))
        (startsWithLower_of_isEndTag h)
    rw [List.cons_append, scanToEndTag?, if_neg hno, ih (not_infix_lowerCase_tail hs)]
    rfl

theorem not_mem_of_isRaw (h : t.element.isRaw = true) : '<' ∉ lowerCase t.name := by
  have htag := t.tag_element
  rw [Element.isRaw, decide_eq_true_eq] at h
  simp only [rawTags, List.mem_cons, List.not_mem_nil, or_false] at h
  have hname : lowerCase t.name = t.element.tag.toList := by rw [htag, String.toList_ofList]
  rcases h with h | h <;> rw [hname, h] <;> decide

theorem isEndTag_closed {name : List Char} (h : isEndTag name ('<' :: '/' :: (x ++ ['>'])) = true)
    (u : List Char) :
    isEndTag name ('<' :: '/' :: (x ++ '>' :: u)) = true := by
  have happend := isEndTag_append u (lt_of_isEndTag h)
  rw [h] at happend
  simpa using happend

theorem bindMarkup_raw (h : t.Written) (ht : t.bound.Tight) (hraw : t.element.isRaw = true)
    (hs : ¬ ('<' :: '/' :: lowerCase t.name) <:+: lowerCase s) (hx : '>' ∉ x)
    (hend : isEndTag (lowerCase t.name) ('<' :: '/' :: (x ++ ['>'])) = true) (rest : List Char) :
    bindMarkup ('<' :: (t.inside ++ (s ++ '<' :: '/' :: (x ++ '>' :: rest)))) =
      '<' :: (t.bound.inside ++ (s ++ '<' :: '/' :: (x ++ '>' :: bindMarkup rest))) := by
  have htag := t.tag_element
  have hscan : scanToEndTag? t.startTag.name (s ++ '<' :: '/' :: (x ++ '>' :: rest)) =
      some (s, '<' :: '/' :: (x ++ '>' :: rest)) :=
    scanToEndTag?_of_not_infix (not_mem_of_isRaw hraw) hs (isEndTag_closed hend rest)
  have hshut : ¬ t.startTag.IsOpen := by
    rw [Element.isRaw, htag, decide_eq_true_eq] at hraw
    exact fun hopen => hopen.1 hraw
  rw [bindMarkup_element h ht, bindElement_of_not_isOpen hshut hscan, bindMarkup_endTag hx]
  simp [TagText.startTag]

theorem isEndTag_eq_false {name : List Char} (hs : ¬ ('<' :: '/' :: name) <:+: lowerCase s) :
    isEndTag name s = false := by
  rw [← Bool.not_eq_true]
  intro h
  exact hs (startsWithLower_iff.mp (startsWithLower_of_isEndTag h)).isInfix

theorem scanToEndTag?_eq_none {name : List Char} (hs : ¬ ('<' :: '/' :: name) <:+: lowerCase s) :
    scanToEndTag? name s = none := by
  induction s with
  | nil => rfl
  | cons c s ih =>
    rw [scanToEndTag?, isEndTag_eq_false hs, ih (not_infix_lowerCase_tail hs)]
    rfl

theorem bindMarkup_unclosedRaw (h : t.Written) (ht : t.bound.Tight) (hraw : t.element.isRaw = true)
    (hs : ¬ ('<' :: '/' :: lowerCase t.name) <:+: lowerCase s) :
    bindMarkup ('<' :: (t.inside ++ s)) = '<' :: (t.bound.inside ++ s) := by
  have htag := t.tag_element
  have hscan : scanToEndTag? t.startTag.name s = none := scanToEndTag?_eq_none hs
  rw [Element.isRaw, htag, decide_eq_true_eq] at hraw
  have hname : String.ofList t.startTag.name ∈ rawTags := hraw
  rw [bindMarkup_element h ht, bindElement]
  simp only
  rw [if_pos hname, hscan]
  exact List.append_nil _
/-! ## Where regular markup begins -/

/-- Regular markup starts with the same character when it is bound, or with a bracket. -/
theorem Regular.head_bindMarkup {run : List Char → Prop} {tag : TagText → Prop}
    (h : Regular run tag cs) :
    (bindMarkup cs).head? = cs.head? ∨ (bindMarkup cs).head? = some '<' := by
  cases h with
  | nil => exact .inl rfl
  | @text s rest hne hscan =>
    obtain ⟨c, s, rfl⟩ := List.exists_cons_of_ne_nil hne
    rw [bindMarkup_text hne hscan, bindText]
    split
    · rw [List.takeWhile_cons]
      split
      · exact .inl rfl
      · exact .inr rfl
    · exact .inl rfl
  | comment hs =>
    rw [bindMarkup_comment hs]
    exact .inl rfl
  | doctype hs hdash hrest =>
    rw [bindMarkup_doctype hs hdash hrest]
    exact .inl rfl
  | boundDoctype hhead hopen hscan =>
    rw [bindMarkup_boundDoctype hhead hopen hscan]
    exact .inl rfl
  | endTag hs =>
    rw [bindMarkup_endTag hs]
    exact .inl rfl
  | bracket hrest =>
    rw [bindMarkup_bracket hrest]
    exact .inl rfl
  | tag ht htight _ hraw hopen =>
    rcases bindMarkup_tag ht htight hraw hopen with h | ⟨-, -, s, rest', -, -, h⟩
      <;> rw [h] <;> exact .inl rfl
  | bound ht htight _ _ hclosed hvoid hbinds hs hend =>
    rw [bindMarkup_bound ht htight hclosed hvoid hbinds hs hend]
    exact .inl rfl
  | raw ht htight _ hraw _ hs hx hend =>
    rw [bindMarkup_raw ht htight hraw hs hx hend]
    exact .inl rfl
  | unclosedComment hs =>
    rw [bindMarkup_unclosedComment hs]
    exact .inl rfl
  | unclosedEndTag hs =>
    rw [bindMarkup_unclosedEndTag hs]
    exact .inl rfl
  | unclosedRaw ht htight _ hraw _ hs =>
    rw [bindMarkup_unclosedRaw ht htight hraw hs]
    exact .inl rfl

namespace Regular

variable {run : List Char → Prop} {tag : TagText → Prop}

theorem head_after (h : Regular run tag rest)
    (hscan : LiveMarkup.scanText (s ++ rest).length (s ++ rest) = (s, rest)) :
    (bindMarkup rest).head?.all (· = '<') = true := by
  have hhead := head_scanText (le_refl (s ++ rest).length)
  rw [hscan] at hhead
  rcases h.head_bindMarkup with heq | heq <;> rw [heq]
  exacts [hhead, rfl]

theorem head_endTag {name : List Char} (h : Regular run tag rest) (hend : isEndTag name rest = true) :
    (bindMarkup rest).head?.all (· = '<') = true := by
  rcases h.head_bindMarkup with heq | heq <;> rw [heq]
  exacts [head_of_isEndTag hend, rfl]

theorem head_bracket (h : Regular run tag rest)
    (hrest : rest.head?.all (fun c => !c.isAlpha && c ≠ '/' && c ≠ '!') = true) :
    (bindMarkup rest).head?.all (fun c => !c.isAlpha && c ≠ '/' && c ≠ '!') = true := by
  rcases h.head_bindMarkup with heq | heq <;> rw [heq]
  exacts [hrest, rfl]

end Regular

/-- A text up to the next tag is one that there can be, and regular markup comes after it. -/
theorem Regular.scanText {run : List Char → Prop} {tag : TagText → Prop} (h : Regular run tag cs)
    (hscan : LiveMarkup.scanText cs.length cs = (s, rest)) :
    (s ≠ [] → run s) ∧ Regular run tag rest := by
  have hstop : cs.head? = some '<' → s = [] ∧ rest = cs := fun hhead => by
    obtain ⟨r, rfl⟩ := List.head?_eq_some_iff.mp hhead
    rw [List.length_cons, LiveMarkup.scanText, if_pos rfl] at hscan
    exact ⟨(Prod.mk.inj hscan).1.symm, (Prod.mk.inj hscan).2.symm⟩
  cases id h with
  | nil =>
    obtain ⟨rfl, rfl⟩ := Prod.mk.inj hscan
    exact ⟨fun hne => absurd rfl hne, .nil⟩
  | text _ hscan' hs hrest =>
    obtain ⟨rfl, rfl⟩ := Prod.mk.inj (hscan'.symm.trans hscan)
    exact ⟨fun _ => hs, hrest⟩
  | _ =>
    obtain ⟨rfl, rfl⟩ := hstop rfl
    exact ⟨fun hne => absurd rfl hne, h⟩

/-! ## Regular markup with most kinds of pieces -/

def paragraphTag : TagText where
  name := ['p']
  attributes := [.assigned [' '] "class".toList ['='] [] "{a}".toList []]
  gap := []
  closed := false

def scriptTag : TagText where
  name := ['s', 'c', 'r', 'i', 'p', 't']
  attributes := []
  gap := []
  closed := false

def bindingTag : TagText where
  name := ['b']
  attributes := [.assigned [' '] "pado-text".toList ['='] ['\''] "{t}".toList ['\'']]
  gap := []
  closed := false

theorem isGap_space : IsGap [' '] :=
  ⟨by decide, by simp [isAsciiBlank]⟩

theorem written_paragraphTag : paragraphTag.Written where
  letter := by decide
  name := by simp [paragraphTag, isTagNameEnd, isAsciiBlank, tagMarks]
  attributes := List.forall_mem_singleton.mpr ⟨isGap_space,
    ⟨by decide, by simp [isNameChar, isAsciiBlank, tagMarks]⟩, isLink_equals, .group (by decide +kernel)⟩
  gap := nofun

theorem written_scriptTag : scriptTag.Written where
  letter := by decide
  name := by simp [scriptTag, isTagNameEnd, isAsciiBlank, tagMarks]
  attributes := nofun
  gap := nofun

theorem written_bindingTag : bindingTag.Written where
  letter := by decide
  name := by simp [bindingTag, isTagNameEnd, isAsciiBlank, tagMarks]
  attributes := List.forall_mem_singleton.mpr ⟨isGap_space, plainName_textBinding, isLink_equals,
    .quoted (.inr rfl) (by decide +kernel)⟩
  gap := nofun

def mixedMarkup : List Char :=
  "<!doctype html><p class={a}>{x > y}</p> {z} <script>{s}</script><b pado-text='{t}'>{u}</b><!-- {c}".toList

theorem regular_mixedMarkup {run : List Char → Prop} {tag : TagText → Prop} (hrun : ∀ s, '<' ∉ s → run s)
    (hparagraph : tag paragraphTag) (hscript : tag scriptTag) (hbinding : tag bindingTag) :
    Regular run tag mixedMarkup := by
  have hcomment : Regular run tag _ := .unclosedComment (s := " {c}".toList) (by decide +kernel)
  have hboldEnd := Regular.endTag (s := ['b']) (by decide) hcomment
  have hbold := Regular.bound (s := "{u}".toList) written_bindingTag
    ⟨List.forall_mem_singleton.mpr nofun, nofun⟩ hbinding rfl rfl rfl rfl (by decide) rfl hboldEnd
  have hraw := Regular.raw (s := "{s}".toList) (x := "script".toList) written_scriptTag
    ⟨nofun, nofun⟩ hscript rfl rfl (by decide +kernel) (by decide) rfl hbold
  have hloose := Regular.text (s := " {z} ".toList) (by decide) (by decide +kernel)
    (hrun _ (by decide)) hraw
  have hend := Regular.endTag (s := ['p']) (by decide) hloose
  have hleaf := Regular.text (s := "{x > y}".toList) (by decide) (by decide +kernel)
    (hrun _ (by decide)) hend
  have hopen := Regular.tag written_paragraphTag
    ⟨List.forall_mem_singleton.mpr nofun, nofun⟩ hparagraph rfl (.inr (.inr (.inl rfl))) hleaf
  have hpage := Regular.doctype (s := "doctype html".toList) (by simp) (by decide)
    (by rw [List.length_cons, LiveMarkup.scanText, if_pos rfl]; rfl) hopen
  exact cast (congrArg (Regular run tag) (by decide +kernel)) hpage

end LiveMarkup
