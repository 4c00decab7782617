import Mathlib
import LiveMarkup.Markup.Parse
import LiveMarkup.Proofs.Markup.Comments

/-!
# What a piece of markup is read as

One lemma for each kind of piece says what is read at the start of a text that begins with it, and
that the reading goes on right after it (`readEvent_comment`, `readEvent_doctype`,
`readEvent_endTag`, `readEvent_text`, `readEvent_bracket`).  The attributes of a tag are read one
after the other, each by a step of its own (`Begins.quoted` and its likes).
-/

namespace LiveMarkup

open Text

variable {a b cs gap name link raw s u x : List Char} {c q : Char}
  {attributes : List (String × String)}

/-! ## Scanners -/

theorem takeWhile_stop {p : Char → Bool} (ha : ∀ c ∈ a, p c = true) (hu : u.head?.all (!p ·) = true) :
    (a ++ u).takeWhile p = a ∧ (a ++ u).dropWhile p = u := by
  rw [List.takeWhile_append_of_pos ha, List.dropWhile_append_of_pos ha]
  rcases u with _ | ⟨c, u⟩
  · simp
  · have hc : p c = false := by simpa using hu
    simp [hc]

theorem takeWhile_ne (h : c ∉ a) (u : List Char) :
    (a ++ c :: u).takeWhile (· ≠ c) = a ∧ (a ++ c :: u).dropWhile (· ≠ c) = c :: u :=
  takeWhile_stop (fun d hd => decide_eq_true fun hdc => h (hdc ▸ hd)) (by simp)

theorem takeWhile_ne_all (h : c ∉ a) : a.takeWhile (· ≠ c) = a ∧ a.dropWhile (· ≠ c) = [] := by
  have hstop := takeWhile_stop (p := (· ≠ c)) (a := a) (u := [])
    (fun d hd => decide_eq_true fun hdc => h (hdc ▸ hd))
    rfl
  rwa [List.append_nil] at hstop

theorem scanToTagEnd_append (h : '>' ∉ a) (u : List Char) : scanToTagEnd (a ++ '>' :: u) = (a, u) := by
  obtain ⟨h1, h2⟩ := takeWhile_ne h u
  rw [scanToTagEnd, h1, h2]
  rfl

/-! ## Pieces -/

theorem readEvent_comment (h : ¬ "-->".toList <:+: s) (u : List Char) :
    readEvent ("<!--".toList ++ (s ++ ("-->".toList ++ u))) =
      (.whole (.leaf (.comment (String.ofList s))), u) := by
  have hopen : "<!--".toList = ['<', '!', '-', '-'] := by decide
  rw [hopen]
  simp only [List.cons_append, List.nil_append]
  rw [readEvent, cut?_append_of_not_infix h]

theorem readEvent_unclosedComment (h : ¬ "-->".toList <:+: s) :
    readEvent ("<!--".toList ++ s) = (.whole (.leaf (.comment (String.ofList s))), []) := by
  have hopen : "<!--".toList = ['<', '!', '-', '-'] := by decide
  rw [hopen]
  simp only [List.cons_append, List.nil_append]
  rw [readEvent, cut?_eq_none h]

theorem readEvent_doctype (hgt : '>' ∉ s) (hdash : ¬ "--".toList <+: s) (u : List Char) :
    readEvent ('<' :: '!' :: (s ++ '>' :: u)) =
      (.whole (.leaf (.doctype (String.ofList (trim s)))), u) := by
  have hscan := scanToTagEnd_append hgt u
  unfold readEvent
  split
  · rename_i body heq
    have heq : s ++ '>' :: u = '-' :: '-' :: body := (List.cons.inj (List.cons.inj heq).2).2
    rcases s with _ | ⟨c, _ | ⟨d, s⟩⟩
    · simp at heq
    · simp at heq
    · refine absurd ⟨s, ?_⟩ hdash
      simp at heq ⊢
      exact ⟨heq.1.symm, heq.2.1.symm⟩
  · rename_i heq
    obtain rfl := (List.cons.inj (List.cons.inj heq).2).2
    rw [hscan]
  · rename_i heq
    exact absurd (List.cons.inj (List.cons.inj heq).2).1 (by decide)
  · rename_i hdoc _ heq
    exact absurd (List.cons.inj heq).2.symm (hdoc _)
  · rename_i hno
    exact absurd rfl (hno _)

theorem readEvent_endTag (h : '>' ∉ s) (u : List Char) :
    readEvent ('<' :: '/' :: (s ++ '>' :: u)) = (.stop (String.ofList (lowerCase (trim s))), u) := by
  rw [readEvent, scanToTagEnd_append h]

theorem readEvent_unclosedEndTag (h : '>' ∉ s) :
    readEvent ('<' :: '/' :: s) = (.stop (String.ofList (lowerCase (trim s))), []) := by
  obtain ⟨h1, h2⟩ := takeWhile_ne_all h
  rw [readEvent, scanToTagEnd, h1, h2]
  rfl

theorem readEvent_text (hne : s ≠ []) (h : '<' ∉ s) (hu : u.head?.all (· = '<') = true) :
    readEvent (s ++ u) = (textEvent (decodeEntities s), u) := by
  obtain ⟨h1, h2⟩ := takeWhile_stop (p := (· ≠ '<')) (a := s) (u := u)
    (fun c hc => decide_eq_true fun he => h (he ▸ hc)) (by simpa using hu)
  obtain ⟨c, s, rfl⟩ := List.exists_cons_of_ne_nil hne
  have hc : c ≠ '<' := fun he => h (he ▸ List.mem_cons_self)
  unfold readEvent
  split
  iterate 4
    rename_i heq
    exact absurd (List.cons.inj heq).1 hc
  rw [h1, h2]

theorem readEvent_bracket (h : u.head?.all (fun c => !c.isAlpha && c ≠ '/' && c ≠ '!') = true) :
    readEvent ('<' :: u) = (textEvent ['<'], u) := by
  unfold readEvent
  split
  iterate 3
    rename_i heq
    obtain rfl := (List.cons.inj heq).2
    simp at h
  · rename_i heq
    obtain rfl := (List.cons.inj heq).2
    rw [if_neg]
    rcases u with _ | ⟨c, u⟩
    · decide
    · simp only [List.head?_cons, Option.all_some, Bool.and_eq_true, Bool.not_eq_true'] at h
      simp [h.1.1]
  · rename_i hno
    exact absurd rfl (hno _)

theorem readEvent_tag (h : cs.head?.any Char.isAlpha = true) :
    readEvent ('<' :: cs) = readElement cs := by
  rcases cs with _ | ⟨c, cs⟩
  · cases h
  have hc : c.isAlpha = true := h
  have hne : c ≠ '!' ∧ c ≠ '/' := by
    constructor
    all_goals
      rintro rfl
      revert hc
      decide
  unfold readEvent
  split
  · rename_i heq
    exact absurd (List.cons.inj (List.cons.inj heq).2).1 hne.1
  · rename_i heq
    exact absurd (List.cons.inj (List.cons.inj heq).2).1 hne.1
  · rename_i heq
    exact absurd (List.cons.inj (List.cons.inj heq).2).1 hne.2
  · rename_i heq
    obtain rfl := (List.cons.inj heq).2
    rw [if_pos h]
  · rename_i hno
    exact absurd rfl (hno _)

/-! ## Attributes -/

/-- Whether a character can stand in the name of an attribute. -/
def isNameChar (c : Char) : Bool :=
  !isAsciiBlank c && c ≠ '=' && c ≠ '>'

/-- Attributes with another one at the end, unless it has no name or its name is taken. -/
def addNew (attributes : List (String × String)) (a : String × String) : List (String × String) :=
  if a.1 = "" || (attributes.lookup a.1).isSome then attributes else attributes ++ [a]

/-- A name ends before a text: at a blank, a sign of equality, the end of the tag, or the end. -/
def EndsName (name u : List Char) : Prop :=
  scanAttributeName u = ([], u) ∧ (name.getLast? = some '/' → u.head? ≠ some '>')

theorem scanAttributeName_append (hname : ∀ c ∈ name, isNameChar c = true) (hu : EndsName name u) :
    scanAttributeName (name ++ u) = (name, u) := by
  induction name with
  | nil => exact hu.1
  | cons c name ih =>
    obtain ⟨hc, hname⟩ := List.forall_mem_cons.mp hname
    have hends : EndsName name u := by
      refine ⟨hu.1, fun hl => hu.2 ?_⟩
      rcases name with _ | ⟨d, name⟩
      · cases hl
      · rw [List.getLast?_cons_cons, hl]
    have hslash : ∀ cs, c = '/' → name ++ u = '>' :: cs → False := by
      rintro cs rfl heq
      rcases name with _ | ⟨d, name⟩
      · exact hu.2 rfl (by rw [show u = '>' :: cs from heq]; rfl)
      · have hgt : d = '>' := (List.cons.inj heq).1
        have hmem : d ∈ '/' :: d :: name := List.mem_cons_of_mem _ List.mem_cons_self
        exact absurd (hgt ▸ hname d hmem) (by decide)
    have hstop : ¬ (isAsciiBlank c || decide (c = '=') || decide (c = '>')) = true := by
      simpa [isNameChar, and_assoc] using hc
    rw [List.cons_append, scanAttributeName.eq_3 _ _ hslash, if_neg hstop, ih hname hends]

/-- A name ends before a text that starts with a blank, a sign of equality or a bracket. -/
theorem endsName_of_head (hc : isNameChar c = false) (h : name.getLast? = some '/' → c ≠ '>')
    (u : List Char) : EndsName name (c :: u) := by
  refine ⟨?_, fun hl hgt => h hl (Option.some.inj hgt)⟩
  have hslash : ∀ cs, c = '/' → u = '>' :: cs → False := by
    rintro _ rfl -
    revert hc
    decide
  have hstop : (isAsciiBlank c || decide (c = '=') || decide (c = '>')) = true := by
    simpa [isNameChar, or_iff_not_imp_left] using hc
  rw [scanAttributeName.eq_3 _ _ hslash, if_pos hstop]

theorem endsName_equals {blanks : List Char} (h : ∀ c ∈ blanks, isAsciiBlank c = true) (v : List Char) :
    EndsName name (blanks ++ '=' :: v) := by
  rcases blanks with _ | ⟨c, blanks⟩
  · exact endsName_of_head (by decide) (fun _ => by decide) v
  · have hc := h c List.mem_cons_self
    refine endsName_of_head (by simp [isNameChar, hc]) ?_ _
    rintro - rfl
    revert hc
    decide

/-- How an attribute begins: blanks, a name, and blanks up to the sign of equality. -/
structure Begins (gap name blanks : List Char) : Prop where
  gap_blank : ∀ c ∈ gap, isAsciiBlank c = true
  name_chars : ∀ c ∈ name, isNameChar c = true
  no_slash : name.head? ≠ some '/'
  blanks_blank : ∀ c ∈ blanks, isAsciiBlank c = true
  /-- Without a name there are no blanks after it. -/
  nameless : name = [] → blanks = []

theorem not_isAsciiBlank (hc : isNameChar c = true) : isAsciiBlank c = false := by
  rw [isNameChar, Bool.and_eq_true, Bool.and_eq_true] at hc
  simpa using hc.1.1

namespace Begins

variable {blanks blanks' : List Char}

/-- Where an attribute begins, no tag ends. -/
theorem step (h : Begins gap name blanks) (hne : name ≠ [] ∨ u.head? = some '=') (fuel : Nat)
    (attributes : List (String × String)) : scanAttributes (fuel + 1) attributes (gap ++ (name ++ u)) =
      scanAttributes fuel
        (addNew attributes ((scanAttribute (name ++ u)).1, (scanAttribute (name ++ u)).2.1))
        (scanAttribute (name ++ u)).2.2 := by
  obtain ⟨c, r, hr, hc⟩ : ∃ c r, name ++ u = c :: r ∧
      isAsciiBlank c = false ∧ c ≠ '>' ∧ c ≠ '/' := by
    rcases name with _ | ⟨c, name⟩
    · rcases u with _ | ⟨c, u⟩
      · simp at hne
      · obtain rfl : c = '=' := by simpa using hne
        exact ⟨'=', u, rfl, by decide, by decide, by decide⟩
    · have hc := h.name_chars c List.mem_cons_self
      refine ⟨c, name ++ u, rfl, not_isAsciiBlank hc, ?_, fun he => h.no_slash (he ▸ rfl)⟩
      rintro rfl
      exact absurd hc (by decide)
  have hdrop : (gap ++ (name ++ u)).dropWhile isAsciiBlank = name ++ u :=
    (takeWhile_stop h.gap_blank (by rw [hr]; simp [hc.1])).2
  rw [scanAttributes, hdrop]
  simp only [hr]
  split
  · rename_i heq
    cases heq
  · rename_i heq
    exact absurd (List.cons.inj heq).1 hc.2.1
  · rename_i heq
    exact absurd (List.cons.inj heq).1 hc.2.2
  · rename_i heq
    exact absurd (List.cons.inj heq).1 hc.2.2
  · rfl

theorem assigned (h : Begins gap name blanks) (fuel : Nat) (attributes : List (String × String))
    (v : List Char) :
    scanAttributes (fuel + 1) attributes (gap ++ (name ++ (blanks ++ '=' :: v))) =
      scanAttributes fuel (addNew attributes (String.ofList (lowerCase name),
        String.ofList (decodeEntities (scanAttributeValue v).1))) (scanAttributeValue v).2 := by
  have hends : EndsName name (blanks ++ '=' :: v) := endsName_equals h.blanks_blank v
  have hdrop : (blanks ++ '=' :: v).dropWhile isAsciiBlank = '=' :: v :=
    (takeWhile_stop h.blanks_blank (by simp; decide)).2
  have hne : name ≠ [] ∨ (blanks ++ '=' :: v).head? = some '=' :=
    (eq_or_ne name []).symm.imp_right fun he => by rw [h.nameless he]; rfl
  rw [h.step hne, scanAttribute, scanAttributeName_append h.name_chars hends]
  simp only [hdrop]

/-- The value of an attribute in quotes ends at the next quote. -/
theorem quoted (h : Begins gap name blanks) (hb : ∀ c ∈ blanks', isAsciiBlank c = true)
    (hq : q = '"' ∨ q = '\'')
    (hraw : q ∉ raw) (fuel : Nat) (attributes : List (String × String)) (u : List Char) :
    scanAttributes (fuel + 1) attributes
        (gap ++ (name ++ (blanks ++ '=' :: (blanks' ++ q :: (raw ++ q :: u))))) =
      scanAttributes fuel (addNew attributes (String.ofList (lowerCase name),
        String.ofList (decodeEntities raw))) u := by
  obtain ⟨htake, hdrop⟩ := takeWhile_ne hraw u
  have hblank : isAsciiBlank q = false := by rcases hq with rfl | rfl <;> decide
  have hvalue : scanAttributeValue (blanks' ++ q :: (raw ++ q :: u)) = (raw, u) := by
    rw [scanAttributeValue, (takeWhile_stop hb (by simp [hblank])).2]
    simp only
    rw [if_pos (by simpa using hq), htake, hdrop]
    rfl
  rw [h.assigned, hvalue]

/-- The value of an attribute outside quotes ends at the next blank or at the end of the tag. -/
theorem unquoted (h : Begins gap name blanks) (hb : ∀ c ∈ blanks', isAsciiBlank c = true)
    (hraw : ∀ c ∈ raw, isAsciiBlank c = false ∧ c ≠ '>')
    (hquote : raw.head? ≠ some '"' ∧ raw.head? ≠ some '\'')
    (hu : u.head?.all (fun c => isAsciiBlank c || c = '>') = true) (hne : raw ≠ [] ∨ u.head? = some '>')
    (fuel : Nat) (attributes : List (String × String)) :
    scanAttributes (fuel + 1) attributes (gap ++ (name ++ (blanks ++ '=' :: (blanks' ++ (raw ++ u))))) =
      scanAttributes fuel (addNew attributes (String.ofList (lowerCase name),
        String.ofList (decodeEntities raw))) u := by
  obtain ⟨htake, hdrop⟩ := takeWhile_stop (p := fun c => !isAsciiBlank c && c ≠ '>') (a := raw) (u := u)
    (fun c hc => by simp [(hraw c hc).1, (hraw c hc).2])
    (by simpa [Bool.not_and, Bool.not_not] using hu)
  obtain ⟨c, r, hr, hblank, hc⟩ : ∃ c r, raw ++ u = c :: r ∧ isAsciiBlank c = false ∧
      ¬ (c = '"' ∨ c = '\'') := by
    rcases raw with _ | ⟨c, raw⟩
    · rcases u with _ | ⟨c, u⟩
      · simp at hne
      · obtain rfl : c = '>' := by simpa using hne
        exact ⟨'>', u, rfl, by decide, by decide⟩
    · refine ⟨c, raw ++ u, rfl, (hraw c List.mem_cons_self).1, ?_⟩
      rintro (rfl | rfl)
      exacts [hquote.1 rfl, hquote.2 rfl]
  have hvalue : scanAttributeValue (blanks' ++ (raw ++ u)) = (raw, u) := by
    rw [scanAttributeValue, (takeWhile_stop hb (by rw [hr]; simp [hblank])).2, hr]
    simp only
    rw [if_neg (by simpa using hc), ← hr, htake, hdrop]
  rw [h.assigned, hvalue]

theorem alone (h : Begins gap name []) (hne : name ≠ []) (hu : EndsName name u)
    (heq : (u.dropWhile isAsciiBlank).head? ≠ some '=') (fuel : Nat)
    (attributes : List (String × String)) : scanAttributes (fuel + 1) attributes (gap ++ (name ++ u)) =
      scanAttributes fuel (addNew attributes (String.ofList (lowerCase name), "")) u := by
  rw [h.step (.inl hne), scanAttribute, scanAttributeName_append h.name_chars hu]
  simp only
  split
  · rename_i hr
    rw [hr] at heq
    exact absurd rfl heq
  · rfl

end Begins

theorem scanAttributes_end (hgap : ∀ c ∈ gap, isAsciiBlank c = true) (fuel : Nat)
    (attributes : List (String × String)) (u : List Char) :
    scanAttributes (fuel + 1) attributes (gap ++ '>' :: u) = (attributes, false, u) := by
  have hstop : ('>' :: u).head?.all (!isAsciiBlank ·) = true := by simp; decide
  simp only [scanAttributes, (takeWhile_stop hgap hstop).2]

theorem scanAttributes_close (hgap : ∀ c ∈ gap, isAsciiBlank c = true) (fuel : Nat)
    (attributes : List (String × String)) (u : List Char) :
    scanAttributes (fuel + 1) attributes (gap ++ '/' :: '>' :: u) = (attributes, true, u) := by
  have hstop : ('/' :: '>' :: u).head?.all (!isAsciiBlank ·) = true := by simp; decide
  simp only [scanAttributes, (takeWhile_stop hgap hstop).2]

/-! ## Start tags -/

/-- Whether a character ends the name of a tag. -/
def isTagNameEnd (c : Char) : Bool :=
  isAsciiBlank c || c = '>' || c = '/'

/-- What an element is read as whose start tag is read, and the text after it. -/
def Element.opened (e : Element) (selfClosing : Bool) (rest : List Char) : Event × List Char :=
  if selfClosing || e.isVoid then (.whole (.leaf (.element e)), rest)
  else if e.isRaw then
    let (text, rest) := scanRaw ('<' :: '/' :: e.tag.toList) rest
    let content := if text = [] then [] else [Tree.leaf (.text (String.ofList text))]
    (.whole (.node (.element e) content), (scanToTagEnd rest).2)
  else (.start e, rest)

theorem readElement_eq {selfClosing : Bool} {rest : List Char}
    (hname : ∀ c ∈ name, isTagNameEnd c = false)
    (hu : u.head?.all isTagNameEnd = true)
    (hscan : scanAttributes (u.length + 1) [] u = (attributes, selfClosing, rest)) :
    readElement (name ++ u) =
      Element.opened { Element.ofTag (String.ofList name) with attributes } selfClosing rest := by
  obtain ⟨htake, hdrop⟩ := takeWhile_stop (p := (!isTagNameEnd ·)) (a := name) (u := u)
    (fun c hc => by simp [hname c hc]) (by simpa using hu)
  have htake : (name ++ u).takeWhile
      (fun c => !(isAsciiBlank c || decide (c = '>') || decide (c = '/'))) =
      name := htake
  have hdrop : (name ++ u).dropWhile
      (fun c => !(isAsciiBlank c || decide (c = '>') || decide (c = '/'))) =
      u := hdrop
  rw [readElement]
  simp only [htake, hdrop, hscan]
  rfl

theorem startsWithLower_iff {mark : List Char} :
    startsWithLower mark cs = true ↔ mark <+: lowerCase cs := by
  have htake : lowerCase (cs.take mark.length) = (lowerCase cs).take mark.length := List.map_take
  rw [startsWithLower, startsWith, Option.isSome_iff_exists, htake]
  constructor
  · rintro ⟨rest, h⟩
    exact (List.prefix_append mark rest).trans (after?_eq_some_iff.mp h ▸ List.take_prefix _ _)
  · rintro h
    exact ⟨[], after?_eq_some_iff.mpr (by rw [List.append_nil, ← List.prefix_iff_eq_take.mp h])⟩

/-- A mark that is not in a text does not start in it, if what follows is nothing or such a mark. -/
theorem not_startsWithLower_append {mark : List Char} (hmark : '<' ∉ mark)
    (hs : ¬ ('<' :: mark) <:+: lowerCase (c :: s))
    (hu : u = [] ∨ startsWithLower ('<' :: mark) u = true) :
    ¬ startsWithLower ('<' :: mark) (c :: (s ++ u)) = true := by
  rw [startsWithLower_iff, ← List.cons_append, lowerCase, List.map_append]
  rintro ⟨t, ht⟩
  rcases List.append_eq_append_iff.mp ht with ⟨z, hz, -⟩ | ⟨z, hz, hzu⟩
  · exact hs ⟨[], z, hz.symm⟩
  · rcases z with _ | ⟨d, z⟩
    · exact hs ⟨[], [], by rw [hz, List.append_nil]; simp [lowerCase]⟩
    · -- the rest of the mark would start with a bracket
      have hd : d ∈ mark := by
        rw [(List.cons.inj hz).2]
        exact List.mem_append_right _ List.mem_cons_self
      rcases hu with rfl | hu
      · cases hzu
      · obtain ⟨v, hv⟩ := startsWithLower_iff.mp hu
        rw [lowerCase, hzu] at hv
        exact hmark ((List.cons.inj hv).1 ▸ hd)

theorem not_infix_lowerCase_tail {mark : List Char} (h : ¬ mark <:+: lowerCase (c :: s)) :
    ¬ mark <:+: lowerCase s :=
  fun hs => h (hs.trans (List.suffix_cons c.toLower (lowerCase s)).isInfix)

/-- A text that does not hold the end of its element is read up to there. -/
theorem scanRaw_append {mark : List Char} (hmark : '<' ∉ mark) (hs : ¬ ('<' :: mark) <:+: lowerCase s)
    (hu : u = [] ∨ startsWithLower ('<' :: mark) u = true) :
    scanRaw ('<' :: mark) (s ++ u) = (s, u) := by
  induction s with
  | nil =>
    rcases hu with rfl | hu
    · rfl
    · rcases u with _ | ⟨c, u⟩
      · rfl
      · rw [List.nil_append, scanRaw, if_pos hu]
  | cons c s ih =>
    rw [List.cons_append, scanRaw, if_neg (not_startsWithLower_append hmark hs hu),
      ih (not_infix_lowerCase_tail hs)]

/-! ## One piece after the other -/

theorem length_readElement_le (cs : List Char) : (readElement cs).2.length ≤ cs.length :=
  (readElement_suffix cs).length_le

theorem length_readEvent_lt (hne : cs ≠ []) : (readEvent cs).2.length < cs.length := by
  have hend : ∀ body : List Char, (scanToTagEnd body).2.length ≤ body.length :=
    fun body => (scanToTagEnd_suffix body).length_le
  unfold readEvent
  split
  · split
    · rename_i h
      have := congrArg List.length (cut_eq h)
      simp only [List.length_append, List.length_cons] at this ⊢
      omega
    · exact List.length_pos_of_ne_nil hne
  · rename_i body _
    have := hend body
    simp only [List.length_cons]
    omega
  · rename_i body
    have := hend body
    simp only [List.length_cons]
    omega
  · rename_i rest _ _ _
    split
    · have := length_readElement_le rest
      rw [List.length_cons]
      omega
    · exact Nat.lt_succ_self _
  · rename_i hno
    obtain ⟨c, cs, rfl⟩ := List.exists_cons_of_ne_nil hne
    have hc : c ≠ '<' := fun he => hno cs (by rw [he])
    simp only
    rw [List.dropWhile_cons_of_pos (by simpa using hc), List.length_cons]
    exact Nat.lt_succ_of_le (List.length_dropWhile_le _ cs)

theorem eventsFrom_eq {fuel fuel' : Nat} {cs : List Char} (h : cs.length ≤ fuel)
    (h' : cs.length ≤ fuel') :
    eventsFrom fuel cs = eventsFrom fuel' cs := by
  induction fuel generalizing fuel' cs with
  | zero =>
    obtain rfl := List.length_eq_zero_iff.mp (Nat.le_zero.mp h)
    cases fuel' <;> rfl
  | succ fuel ih =>
    rcases cs with _ | ⟨c, cs⟩
    · cases fuel' <;> rfl
    · obtain ⟨fuel', rfl⟩ := Nat.exists_eq_add_of_le' (show 1 ≤ fuel' by simp at h'; omega)
      have hlt := length_readEvent_lt (List.cons_ne_nil c cs)
      rw [List.length_cons] at h h' hlt
      rw [eventsFrom, eventsFrom]
      · simp only
        rw [ih (show _ ≤ fuel by omega) (show _ ≤ fuel' by omega)]
      · simp
      · simp

theorem events_nil : events [] = [] := rfl

/-- The pieces of a text are the first one and those of the text after it. -/
theorem events_of_readEvent {e : Event} (hne : cs ≠ []) (h : readEvent cs = (e, u)) :
    events cs = e :: events u := by
  have hlt := length_readEvent_lt hne
  obtain ⟨c, cs, rfl⟩ := List.exists_cons_of_ne_nil hne
  rw [h, List.length_cons] at hlt
  rw [events, List.length_cons, eventsFrom, h]
  · simp only
    rw [events, eventsFrom_eq (Nat.le_of_lt_succ hlt) le_rfl]
  · simp

end LiveMarkup
