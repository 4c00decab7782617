import LiveMarkup.Proofs.Markup.Reading
import LiveMarkup.Proofs.Template.Whole

/-!
# Tags that are read alike twice

A start tag of a template is scanned twice: as it is, when its expressions are bound, and as markup,
when what was bound is parsed.  The two scanners differ in what they take for a unit, a group of
braces in particular.  A tag that is written out of attributes with blanks between them
(`TagText.Written`) is cut into just these attributes when it is bound (`TagText.Written.ofSource`),
and read as the element with these attributes when it is parsed, if no value outside quotes ends too
early or too late (`TagText.Written.readEvent`).
-/

namespace LiveMarkup

open Text

variable {a gap name link opening raw closing s u x y : List Char} {c q : Char} {p : TagPart}
  {ps : List TagPart}

/-! ## Attributes as they are written -/

/-- The characters at which the scanner of tags does not just go on. -/
def tagMarks : List Char := ['>', '"', '\'', '\x7b']

/-- Blanks before an attribute. -/
def IsGap (gap : List Char) : Prop :=
  gap ≠ [] ∧ ∀ c ∈ gap, isAsciiBlank c = true

/-- The name of an attribute. -/
def PlainName (name : List Char) : Prop :=
  name ≠ [] ∧ ∀ c ∈ name, isNameChar c = true ∧ c ≠ '/' ∧ c ∉ tagMarks

/-- What stands between a name and a value. -/
def IsLink (link : List Char) : Prop :=
  ∃ a b, link = a ++ '=' :: b ∧ (∀ c ∈ a, isAsciiBlank c = true) ∧ ∀ c ∈ b, isAsciiBlank c = true

/-- The value of an attribute: in quotes, a group of braces, or without marks. -/
inductive IsValue : (opening raw closing : List Char) → Prop
  | quoted {q : Char} {raw : List Char} : q = '"' ∨ q = '\'' → q ∉ raw → IsValue [q] raw [q]
  | group {raw : List Char} : braceGroup? raw = some (raw, []) → IsValue [] raw []
  | plain {raw : List Char} : raw ≠ [] → (∀ c ∈ raw, isAsciiBlank c = false ∧ c ∉ tagMarks) →
    IsValue [] raw []

namespace TagPart

/-- An attribute as it is written in a tag. -/
def Written : TagPart → Prop
  | bare gap name => IsGap gap ∧ PlainName name
  | assigned gap name link opening raw closing =>
    IsGap gap ∧ PlainName name ∧ IsLink link ∧ IsValue opening raw closing
  | slash _ | ending _ => False

/-- An attribute with a value outside quotes. -/
def Unquoted : TagPart → Prop
  | assigned _ _ _ opening _ _ => opening = []
  | _ => False

/-- An attribute whose value, if it is outside quotes, does not end early. -/
def Tight : TagPart → Prop
  | assigned _ _ _ opening raw _ => opening = [] → ∀ c ∈ raw, isAsciiBlank c = false ∧ c ≠ '>'
  | _ => True

/-- The attribute that a part of a tag is read as; without a name it is none. -/
def asAttribute : TagPart → String × String
  | bare _ name => (String.ofList (lowerCase name), "")
  | assigned _ name _ _ raw _ => (String.ofList (lowerCase name), String.ofList (decodeEntities raw))
  | slash _ | ending _ => ("", "")

/-- A part of a tag that has its binding written out. -/
def bound : TagPart → TagPart
  | assigned gap name link opening raw closing =>
    match singleExpression? raw with
    | some e =>
      if startsWith "on".toList (lowerCase name) then
        if opening = [] then assigned gap name ['='] ['"'] (escapeQuote raw) ['"']
        else assigned gap name link opening raw closing
      else if startsWith bindingStart (lowerCase name) then assigned gap name link opening raw closing
      else assigned gap (bindingStart ++ name) ['='] ['"'] (escapeQuote (trim e)) ['"']
    | none => assigned gap name link opening raw closing
  | part => part

theorem source_bound (p : TagPart) : p.bound.source = p.withBinding := by
  rcases p with gap | ⟨gap, name⟩ | ⟨gap, name, link, opening, raw, closing⟩ | source
  · rfl
  · rfl
  · simp only [bound, withBinding]
    rcases singleExpression? raw with _ | e
    · rfl
    · simp only
      split
      · split
        · simp [source]
        · rfl
      · split
        · rfl
        · simp [source]
  · rfl

end TagPart

/-- A start tag: its name, its attributes, blanks, and whether a slash stands before the last
bracket. -/
structure TagText where
  name : List Char
  attributes : List TagPart
  gap : List Char
  closed : Bool

namespace TagText

/-- What stands after the attributes of a tag. -/
def close (t : TagText) : List Char :=
  t.gap ++ if t.closed then ['/', '>'] else ['>']

/-- The text of a tag without its first bracket. -/
def inside (t : TagText) : List Char :=
  t.name ++ (t.attributes.flatMap TagPart.source ++ t.close)

/-- A tag with well-formed attributes. -/
structure Written (t : TagText) : Prop where
  letter : t.name.head?.any Char.isAlpha = true
  name : ∀ c ∈ t.name, isTagNameEnd c = false ∧ c ∉ tagMarks
  attributes : ∀ p ∈ t.attributes, p.Written
  gap : ∀ c ∈ t.gap, isAsciiBlank c = true

/-- No value outside quotes ends early, and none takes the slash at the end of the tag. -/
structure Tight (t : TagText) : Prop where
  values : ∀ p ∈ t.attributes, p.Tight
  last : t.closed = true → t.gap = [] → ∀ p ∈ t.attributes.getLast?, ¬ p.Unquoted

/-- The element that a tag is read as. -/
def element (t : TagText) : Element :=
  { Element.ofTag (String.ofList t.name) with
    attributes := (t.attributes.map TagPart.asAttribute).foldl addNew [] }

/-- Whether an attribute holds the text of the element. -/
def bindsText (t : TagText) : Bool :=
  t.attributes.any TagPart.bindsText

/-- A tag with its bindings written out. -/
def bound (t : TagText) : TagText :=
  { t with attributes := t.attributes.map TagPart.bound }

/-- The tag with its bindings written out of an element whose content is a text that is bound. -/
def withText (t : TagText) (s : List Char) : TagText :=
  { name := t.name
    attributes := t.attributes.map TagPart.bound ++
      [.assigned (t.gap ++ [' ']) textBinding ['='] ['"'] (escapeAll (trim s)) ['"']]
    gap := []
    closed := false }

end TagText

/-! ## What follows an attribute -/

/-- A text that begins with blanks and an attribute, or with the end of a tag. -/
def FollowsAttribute (u : List Char) : Prop :=
  ∃ gap r, u = gap ++ r ∧ (∀ c ∈ gap, isAsciiBlank c = true) ∧
    (r.head? = some '>' ∨ ['/', '>'] <+: r ∨
      gap ≠ [] ∧ r.head?.any (fun c => isNameChar c && c ≠ '/') = true)

theorem TagPart.Written.source_eq (h : p.Written) : ∃ gap c r, p.source = gap ++ c :: r ∧ IsGap gap ∧
    isNameChar c = true ∧ c ≠ '/' := by
  rcases p with gap | ⟨gap, name⟩ | ⟨gap, name, link, opening, raw, closing⟩ | source
  · cases h
  · obtain ⟨hgap, hne, hname⟩ := h
    obtain ⟨c, name, rfl⟩ := List.exists_cons_of_ne_nil hne
    obtain ⟨hc, hslash, -⟩ := hname c List.mem_cons_self
    exact ⟨gap, c, name, rfl, hgap, hc, hslash⟩
  · obtain ⟨hgap, ⟨hne, hname⟩, -⟩ := h
    obtain ⟨c, name, rfl⟩ := List.exists_cons_of_ne_nil hne
    obtain ⟨hc, hslash, -⟩ := hname c List.mem_cons_self
    exact ⟨gap, c, name ++ (link ++ (opening ++ (raw ++ closing))), by simp [source], hgap, hc, hslash⟩
  · cases h

theorem followsAttribute {t : TagText} (hps : ∀ p ∈ ps, p.Written)
    (hgap : ∀ c ∈ t.gap, isAsciiBlank c = true)
    (u : List Char) : FollowsAttribute (ps.flatMap TagPart.source ++ (t.close ++ u)) := by
  rcases ps with _ | ⟨p, ps⟩
  · refine ⟨t.gap, (if t.closed then ['/', '>'] else ['>']) ++ u, by simp [TagText.close], hgap, ?_⟩
    split
    · exact .inr (.inl ⟨u, rfl⟩)
    · exact .inl rfl
  · obtain ⟨gap, c, r, hsource, ⟨hne, hblank⟩, hc, hslash⟩ := (hps p List.mem_cons_self).source_eq
    refine ⟨gap, c :: (r ++ (ps.flatMap TagPart.source ++ (t.close ++ u))), ?_, hblank,
      .inr (.inr ⟨hne, ?_⟩)⟩
    · rw [List.flatMap_cons, hsource]
      simp
    · simp [hc, hslash]

namespace FollowsAttribute

theorem head (h : FollowsAttribute u) : u.head?.all isTagNameEnd = true := by
  obtain ⟨gap, r, rfl, hgap, hr⟩ := h
  rcases gap with _ | ⟨c, gap⟩
  · rcases hr with h | ⟨r, rfl⟩ | ⟨h, -⟩
    · rw [List.nil_append, h]
      decide
    · rfl
    · exact absurd rfl h
  · simp [isTagNameEnd, hgap c List.mem_cons_self]

theorem head_unslashed (h : FollowsAttribute u) (hu : ¬ ['/', '>'] <+: u) :
    u.head?.all (fun c => isAsciiBlank c || c = '>') = true := by
  obtain ⟨gap, r, rfl, hgap, hr⟩ := h
  rcases gap with _ | ⟨c, gap⟩
  · rcases hr with h | h | ⟨h, -⟩
    · rw [List.nil_append, h]
      decide
    · exact absurd h hu
    · exact absurd rfl h
  · simp [hgap c List.mem_cons_self]

theorem dropWhile (h : FollowsAttribute u) : (u.dropWhile isAsciiBlank).head? ≠ some '=' := by
  obtain ⟨gap, r, rfl, hgap, hr⟩ := h
  have hdrop : (gap ++ r).dropWhile isAsciiBlank = r := by
    refine (takeWhile_stop hgap ?_).2
    rcases hr with h | ⟨r, rfl⟩ | ⟨-, h⟩
    · rw [h]
      decide
    · rfl
    · rcases r with _ | ⟨c, r⟩
      · rfl
      · simp only [List.head?_cons, Option.any_some, Bool.and_eq_true] at h
        simp [not_isAsciiBlank h.1]
  rw [hdrop]
  rcases hr with h | ⟨r, rfl⟩ | ⟨-, h⟩
  · simp [h]
  · simp
  · intro heq
    rw [heq] at h
    exact absurd h (by decide)

theorem endsName (h : FollowsAttribute u) (hname : '/' ∉ name) : EndsName name u := by
  have hlast : name.getLast? ≠ some '/' := fun hl => hname (List.mem_of_mem_getLast? hl)
  refine ⟨?_, fun hl => absurd hl hlast⟩
  obtain ⟨gap, r, rfl, hgap, hr⟩ := h
  have hstop : ∀ {c : Char} (r : List Char), isNameChar c = false →
      scanAttributeName (c :: r) = ([], c :: r) :=
    fun r hc => (endsName_of_head hc (fun h : [].getLast? = some '/' => nomatch h) r).1
  rcases gap with _ | ⟨c, gap⟩
  · rcases hr with h | ⟨r, rfl⟩ | ⟨h, -⟩
    · obtain ⟨r', rfl⟩ := List.head?_eq_some_iff.mp h
      exact hstop r' (by decide)
    · rfl
    · exact absurd rfl h
  · exact hstop _ (by simp [isNameChar, hgap c List.mem_cons_self])

end FollowsAttribute

/-! ## Tags that are bound -/

/-- A text that the scanner of tags passes over, whatever follows. -/
def PassedOver (a : List Char) : Prop :=
  ∀ u x y : List Char, (∀ fuel, u.length ≤ fuel → scanTag fuel none u = some (x, y)) →
    ∀ fuel, (a ++ u).length ≤ fuel → scanTag fuel none (a ++ u) = some (a ++ x, y)

namespace PassedOver

theorem append {b : List Char} (ha : PassedOver a) (hb : PassedOver b) : PassedOver (a ++ b) := by
  intro u x y h
  simpa only [List.append_assoc] using ha _ _ _ (hb _ _ _ h)

theorem of_plain (h : ∀ c ∈ a, c ∉ tagMarks) : PassedOver a := by
  induction a with
  | nil => exact fun _ _ _ h => h
  | cons c a ih =>
    obtain ⟨hc, ha⟩ := List.forall_mem_cons.mp h
    intro u x y hu fuel hfuel
    obtain ⟨fuel, rfl⟩ := Nat.exists_eq_add_of_le' (show 1 ≤ fuel from Nat.one_le_of_lt hfuel)
    simp only [tagMarks, List.mem_cons, List.not_mem_nil, or_false, not_or] at hc
    rw [List.cons_append, scanTag, if_neg hc.1, if_neg (by simp [hc.2.1, hc.2.2.1]),
      braceGroup?_eq_none hc.2.2.2]
    simp only
    rw [ih ha u x y hu fuel (Nat.le_of_succ_le_succ hfuel)]
    rfl

theorem of_blank (h : ∀ c ∈ a, isAsciiBlank c = true) : PassedOver a := by
  refine of_plain fun c hc hmark => ?_
  have hall : ∀ d ∈ tagMarks, isAsciiBlank d = false := by simp [tagMarks, isAsciiBlank]
  have := h c hc
  rw [hall c hmark] at this
  cases this

theorem of_quoted (hq : q = '"' ∨ q = '\'') (hraw : q ∉ raw) : PassedOver (q :: (raw ++ [q])) := by
  intro u x y hu fuel hfuel
  have hinside : ∀ raw, q ∉ raw → ∀ fuel, (raw ++ q :: u).length ≤ fuel →
      scanTag fuel (some q) (raw ++ q :: u) = some (raw ++ q :: x, y) := by
    intro raw
    induction raw with
    | nil =>
      intro _ fuel hfuel
      obtain ⟨fuel, rfl⟩ := Nat.exists_eq_add_of_le' (show 1 ≤ fuel from Nat.one_le_of_lt hfuel)
      rw [List.nil_append, scanTag, if_pos rfl, hu fuel (Nat.le_of_succ_le_succ hfuel)]
      rfl
    | cons c raw ih =>
      intro hraw fuel hfuel
      rw [List.mem_cons, not_or] at hraw
      obtain ⟨fuel, rfl⟩ := Nat.exists_eq_add_of_le' (show 1 ≤ fuel from Nat.one_le_of_lt hfuel)
      rw [List.cons_append, scanTag, if_neg (Ne.symm hraw.1),
        ih hraw.2 fuel (Nat.le_of_succ_le_succ hfuel)]
      rfl
  have hgt : q ≠ '>' := by rcases hq with rfl | rfl <;> decide
  have hsum : ∀ z, q :: (raw ++ [q]) ++ z = q :: (raw ++ q :: z) := by simp
  rw [hsum] at hfuel ⊢
  obtain ⟨fuel, rfl⟩ := Nat.exists_eq_add_of_le' (show 1 ≤ fuel from Nat.one_le_of_lt hfuel)
  rw [scanTag, if_neg hgt, if_pos (by simpa using hq),
    hinside raw hraw fuel (Nat.le_of_succ_le_succ hfuel), hsum]
  rfl

theorem of_group (h : braceGroup? raw = some (raw, [])) : PassedOver raw := by
  intro u x y hu fuel hfuel
  have hgroup := braceGroup?_append u h
  obtain ⟨r, rfl⟩ := exists_of_braceGroup? h
  obtain ⟨fuel, rfl⟩ := Nat.exists_eq_add_of_le' (show 1 ≤ fuel from Nat.one_le_of_lt hfuel)
  rw [List.cons_append] at hgroup ⊢
  rw [scanTag, if_neg (by decide), if_neg (by decide), hgroup]
  simp only [List.nil_append]
  rw [hu fuel (by simp at hfuel; omega)]
  rfl

theorem of_value (h : IsValue opening raw closing) : PassedOver (opening ++ (raw ++ closing)) := by
  cases h with
  | quoted hq hraw => exact of_quoted hq hraw
  | group hg => simpa using of_group hg
  | plain _ hraw => simpa using of_plain fun c hc => (hraw c hc).2

theorem of_written (h : p.Written) : PassedOver p.source := by
  have hname : ∀ {name}, PlainName name → PassedOver name := fun h => of_plain fun c hc => (h.2 c hc).2.2
  rcases p with gap | ⟨gap, name⟩ | ⟨gap, name, link, opening, raw, closing⟩ | source
  · cases h
  · exact (of_blank h.1.2).append (hname h.2)
  · obtain ⟨hgap, hn, ⟨a, b, rfl, ha, hb⟩, hv⟩ := h
    have hlink : PassedOver (a ++ (['='] ++ b)) :=
      (of_blank ha).append ((of_plain (by simp [tagMarks])).append (of_blank hb))
    have := (of_blank hgap.2).append ((hname hn).append (hlink.append (of_value hv)))
    simpa [TagPart.source] using this
  · cases h

end PassedOver

theorem TagText.Written.isTag {t : TagText} (h : t.Written) : IsTag t.inside where
  named := by
    have := h.letter
    rcases hname : t.name with _ | ⟨c, name⟩ <;> rw [hname] at this
    · cases this
    · rw [TagText.inside, hname]
      exact this
  scan u := by
    have hend : ∀ fuel, ('>' :: u).length ≤ fuel → scanTag fuel none ('>' :: u) = some (['>'], u) := by
      intro fuel hfuel
      obtain ⟨fuel, rfl⟩ := Nat.exists_eq_add_of_le' (show 1 ≤ fuel from Nat.one_le_of_lt hfuel)
      rw [scanTag, if_pos rfl]
    have hattributes : ∀ ps : List TagPart, (∀ p ∈ ps, p.Written) →
        PassedOver (ps.flatMap TagPart.source) := by
      intro ps hps
      induction ps with
      | nil => exact fun _ _ _ h => h
      | cons p ps ih =>
        rw [List.forall_mem_cons] at hps
        exact (PassedOver.of_written hps.1).append (ih hps.2)
    have hclose : PassedOver (t.gap ++ if t.closed then ['/'] else []) :=
      (PassedOver.of_blank h.gap).append (PassedOver.of_plain (by split <;> simp [tagMarks]))
    have hname : PassedOver t.name := PassedOver.of_plain fun c hc => (h.name c hc).2
    have hinside : t.inside = t.name ++ (t.attributes.flatMap TagPart.source ++
        (t.gap ++ if t.closed then ['/'] else [])) ++ ['>'] := by
      rw [TagText.inside, TagText.close]
      split <;> simp
    have := (hname.append ((hattributes _ h.attributes).append hclose)) _ _ _ hend _ le_rfl
    rw [hinside, List.append_assoc _ ['>']]
    exact this

theorem singleExpression?_eq_none (h : '\x7b' ∉ raw) : singleExpression? raw = none := by
  have hnone : braceGroup? (trim raw) = none := by
    rcases htrim : trim raw with _ | ⟨c, r⟩
    · rfl
    · refine braceGroup?_eq_none ?_ r
      rintro rfl
      exact h ((isInfix_trim raw).subset (htrim ▸ List.mem_cons_self))
  rw [singleExpression?, hnone]

theorem bound_eq_self (h : singleExpression? raw = none) :
    (TagPart.assigned gap name link opening raw closing).bound =
      .assigned gap name link opening raw closing := by
  simp only [TagPart.bound, h]

theorem scanTagValue_append (h : IsValue opening raw closing) (hu : FollowsAttribute u)
    (hplain : opening = [] → '\x7b' ∉ raw → ¬ ['/', '>'] <+: u) :
    scanTagValue (opening ++ (raw ++ (closing ++ u))) = (opening, raw, closing, u) ∧
      (opening ++ (raw ++ (closing ++ u))).head?.all (!isAsciiBlank ·) = true := by
  cases h with
  | @quoted q raw hq hraw =>
    obtain ⟨htake, hdrop⟩ := takeWhile_ne hraw u
    constructor
    · rw [List.singleton_append, scanTagValue]
      simp only
      rw [if_pos (by simpa using hq)]
      simp only [List.singleton_append, htake, hdrop]
      rfl
    · rcases hq with rfl | rfl <;> rfl
  | group hg =>
    have hgroup := braceGroup?_append u hg
    obtain ⟨r, rfl⟩ := exists_of_braceGroup? hg
    refine ⟨?_, rfl⟩
    simp only [List.nil_append, List.cons_append] at hgroup ⊢
    rw [scanTagValue]
    simp only
    rw [if_neg (by decide), hgroup]
  | plain hne hraw =>
    have hbrace : '\x7b' ∉ raw := fun h => (hraw _ h).2 (by decide)
    have hstop := hu.head_unslashed (hplain rfl hbrace)
    obtain ⟨htake, hdrop⟩ := takeWhile_stop (p := fun c => !isAsciiBlank c && c ≠ '>') (a := raw) (u := u)
      (fun c hc => by
        have hgt : c ≠ '>' := fun h => (hraw c hc).2 (h ▸ by decide)
        simp [(hraw c hc).1, hgt])
      (by simpa [Bool.not_and, Bool.not_not] using hstop)
    obtain ⟨c, raw, rfl⟩ := List.exists_cons_of_ne_nil hne
    obtain ⟨hblank, hc⟩ := hraw c List.mem_cons_self
    simp only [tagMarks, List.mem_cons, List.not_mem_nil, or_false, not_or] at hc
    simp only [List.nil_append, List.cons_append] at htake hdrop ⊢
    refine ⟨?_, by simp [hblank]⟩
    rw [scanTagValue]
    simp only
    rw [if_neg (by simp [hc.2.1, hc.2.2.1]), braceGroup?_eq_none hc.2.2.2]
    simp only [htake, hdrop]

theorem PlainName.not_mem_slash (h : PlainName name) : '/' ∉ name :=
  fun hmem => (h.2 _ hmem).2.1 rfl

/-- Where an attribute with a name begins, its gap and its name are cut off. -/
theorem tagParts_name (hgap : IsGap gap) (hname : PlainName name) (hu : EndsName name u) (fuel : Nat) :
    tagParts (fuel + 1) (gap ++ (name ++ u)) =
      match u.dropWhile isAsciiBlank with
      | '=' :: v =>
        let (opening, raw, closing, rest) := scanTagValue (v.dropWhile isAsciiBlank)
        let link := u.takeWhile isAsciiBlank ++ '=' :: v.takeWhile isAsciiBlank
        .assigned gap name link opening raw closing :: tagParts fuel rest
      | _ => .bare gap name :: tagParts fuel u := by
  have hscan := scanAttributeName_append (fun c hc => (hname.2 c hc).1) hu
  obtain ⟨c, name, rfl⟩ := List.exists_cons_of_ne_nil hname.1
  obtain ⟨hc, hslash, -⟩ := hname.2 c List.mem_cons_self
  have hgt : c ≠ '>' := by
    rintro rfl
    exact absurd hc (by decide)
  obtain ⟨htake, hdrop⟩ := takeWhile_stop (u := c :: name ++ u) hgap.2 (by simp [not_isAsciiBlank hc])
  rw [tagParts]
  simp only [htake, hdrop]
  split
  · rename_i heq
    cases heq
  · rename_i heq
    exact absurd (List.cons.inj heq).1 hgt
  · rename_i heq
    exact absurd (List.cons.inj heq).1 hslash
  · rename_i heq
    exact absurd (List.cons.inj heq).1 hslash
  · rewrite [hscan]
    rfl

theorem tagParts_cons (hp : p.Written) (hu : FollowsAttribute u)
    (hlast : p.bound.Unquoted → ¬ ['/', '>'] <+: u)
    (h : ∀ fuel, u.length ≤ fuel → tagParts fuel u = ps) :
    ∀ fuel, (p.source ++ u).length ≤ fuel → tagParts fuel (p.source ++ u) = p :: ps := by
  intro fuel hfuel
  obtain ⟨fuel, rfl⟩ := Nat.exists_eq_add_of_le' (show 1 ≤ fuel by
    obtain ⟨gap, c, r, hsource, -⟩ := hp.source_eq
    rw [hsource] at hfuel
    simp at hfuel
    omega)
  rcases p with gap | ⟨gap, name⟩ | ⟨gap, name, link, opening, raw, closing⟩ | source
  · cases hp
  · obtain ⟨hgap, hname⟩ := hp
    have hlen : u.length ≤ fuel := by
      have := List.length_pos_of_ne_nil hgap.1
      simp [TagPart.source] at hfuel
      omega
    rw [TagPart.source, List.append_assoc, tagParts_name hgap hname (hu.endsName hname.not_mem_slash),
      h fuel hlen]
    split
    · rename_i hv
      exact absurd (by rw [hv]; rfl) hu.dropWhile
    · rfl
  · obtain ⟨hgap, hname, ⟨a, b, rfl, ha, hb⟩, hvalue⟩ := hp
    have hlen : u.length ≤ fuel := by
      have := List.length_pos_of_ne_nil hgap.1
      simp [TagPart.source] at hfuel
      omega
    have hplain : opening = [] → '\x7b' ∉ raw → ¬ ['/', '>'] <+: u := fun hopen hbrace =>
      hlast (by rw [bound_eq_self (singleExpression?_eq_none hbrace)]; exact hopen)
    obtain ⟨hscan, hhead⟩ := scanTagValue_append hvalue hu hplain
    have hsource : (TagPart.assigned gap name (a ++ '=' :: b) opening raw closing).source ++ u =
        gap ++ (name ++ (a ++ '=' :: (b ++ (opening ++ (raw ++ (closing ++ u)))))) := by
      simp [TagPart.source]
    obtain ⟨htake, hdrop⟩ := takeWhile_stop (u := '=' :: (b ++ (opening ++ (raw ++ (closing ++ u)))))
      ha rfl
    obtain ⟨htake', hdrop'⟩ := takeWhile_stop hb hhead
    rw [hsource, tagParts_name hgap hname (endsName_equals ha _), hdrop]
    simp only
    rw [hdrop', hscan, htake, htake', h fuel hlen]
  · cases hp

namespace TagText

variable {t : TagText}

theorem dropWhile_close (hgap : ∀ c ∈ t.gap, isAsciiBlank c = true) (u : List Char) :
    (t.close ++ u).dropWhile isAsciiBlank = (if t.closed then ['/', '>'] else ['>']) ++ u := by
  rw [close, List.append_assoc]
  exact (takeWhile_stop hgap (by split <;> rfl)).2

/-- A slash follows an attribute only at the end of the tag. -/
theorem not_slash {P : TagPart → Prop} (hps : ∀ q ∈ ps, q.Written)
    (hgap : ∀ c ∈ t.gap, isAsciiBlank c = true)
    (hlast : t.closed = true → t.gap = [] → ∀ q ∈ (p :: ps).getLast?, ¬ P q) (hp : P p) (u : List Char) :
    ¬ ['/', '>'] <+: ps.flatMap TagPart.source ++ (t.close ++ u) := by
  have hblank : ∀ {c : Char} {r : List Char}, isAsciiBlank c = true → ¬ ['/', '>'] <+: c :: r := by
    rintro c r hc ⟨r', hr'⟩
    obtain rfl := (List.cons.inj hr').1
    revert hc
    decide
  rcases ps with _ | ⟨q, ps⟩
  · rcases hg : t.gap with _ | ⟨c, gap⟩
    · rcases hclosed : t.closed with _ | _
      · rw [close, hg, hclosed]
        rintro ⟨r, hr⟩
        simp at hr
      · exact absurd hp (hlast hclosed hg p rfl)
    · rw [close, hg]
      exact hblank (hgap c (hg ▸ List.mem_cons_self))
  · obtain ⟨gap, c, r, hsource, ⟨hne, hall⟩, -⟩ := (hps q List.mem_cons_self).source_eq
    obtain ⟨d, gap, rfl⟩ := List.exists_cons_of_ne_nil hne
    rw [List.flatMap_cons, hsource]
    exact hblank (hall d List.mem_cons_self)

theorem getLast?_of_cons {P : TagPart → Prop}
    (hlast : t.closed = true → t.gap = [] → ∀ q ∈ (p :: ps).getLast?, P q) :
    t.closed = true → t.gap = [] → ∀ q ∈ ps.getLast?, P q := by
  intro h1 h2 q hq
  refine hlast h1 h2 q ?_
  rcases ps with _ | ⟨r, ps⟩
  · cases hq
  · rwa [List.getLast?_cons_cons]

/-- The attributes of a tag are cut off one after the other. -/
theorem tagParts_attributes (hgap : ∀ c ∈ t.gap, isAsciiBlank c = true) (hps : ∀ p ∈ ps, p.Written)
    (hlast : t.closed = true → t.gap = [] → ∀ p ∈ ps.getLast?, ¬ p.bound.Unquoted) :
    ∀ fuel, (ps.flatMap TagPart.source ++ t.close).length ≤ fuel →
      tagParts fuel (ps.flatMap TagPart.source ++ t.close) = ps ++ [.ending t.close] := by
  induction ps with
  | nil =>
    intro fuel _
    rcases fuel with _ | fuel
    · rfl
    · have hdrop := dropWhile_close hgap []
      rw [List.append_nil, List.append_nil] at hdrop
      rw [List.flatMap_nil, List.nil_append, tagParts]
      rcases hclosed : t.closed with _ | _ <;> rw [hclosed] at hdrop <;> simp [hdrop]
  | cons p ps ih =>
    obtain ⟨hp, hps⟩ := List.forall_mem_cons.mp hps
    have hu := followsAttribute (t := t) hps hgap []
    have hslash := fun h => not_slash (P := fun p => p.bound.Unquoted) hps hgap hlast h []
    rw [List.append_nil] at hu hslash
    rw [List.flatMap_cons, List.append_assoc]
    exact tagParts_cons hp hu hslash (ih hps (getLast?_of_cons hlast))

theorem source_bound_attributes (ps : List TagPart) :
    (ps.map TagPart.bound).flatMap TagPart.source = ps.flatMap TagPart.withBinding := by
  rw [List.flatMap_map]
  exact congrArg (ps.flatMap ·) (funext TagPart.source_bound)

theorem Written.ofSource (h : t.Written) (ht : t.bound.Tight) : StartTag.ofSource ('<' :: t.inside) =
    { name := lowerCase t.name
      source := '<' :: t.bound.inside
      selfClosing := t.closed
      bindsText := t.bindsText } := by
  have hends : (t.attributes.flatMap TagPart.source ++ t.close).head?.all isTagNameEnd = true := by
    have := (followsAttribute (t := t) h.attributes h.gap []).head
    rwa [List.append_nil] at this
  obtain ⟨htake, hdrop⟩ := takeWhile_stop (p := (!isTagNameEnd ·)) (a := t.name)
    (fun c hc => by simp [(h.name c hc).1]) (by simpa only [Bool.not_not] using hends)
  have hlast : t.closed = true → t.gap = [] → ∀ p ∈ t.attributes.getLast?, ¬ p.bound.Unquoted := by
    intro h1 h2 p hp
    refine ht.last h1 h2 p.bound ?_
    rw [bound, List.getLast?_map]
    exact Option.mem_map_of_mem _ hp
  have hparts := tagParts_attributes h.gap h.attributes hlast ('<' :: t.inside).length
    (by simp only [inside, List.length_cons, List.length_append]; omega)
  have hself : (TagPart.ending t.close).closesItself = t.closed := by
    have hclose := dropWhile_close h.gap []
    rw [List.append_nil, List.append_nil] at hclose
    rw [TagPart.closesItself, hclose]
    rcases t.closed with _ | _ <;> rfl
  have hnone : t.attributes.any TagPart.closesItself = false :=
    List.any_eq_false.mpr fun p hp => by
      have := h.attributes p hp
      rcases p with _ | _ | _ | _
      case ending => cases this
      all_goals simp [TagPart.closesItself]
  have hinside : t.bound.inside = t.name ++ (t.attributes.flatMap TagPart.withBinding ++ t.close) := by
    rw [inside, bound, source_bound_attributes]
    rfl
  rw [StartTag.ofSource]
  have htake' : (('<' :: t.inside).drop 1).takeWhile
      (fun c => !(isAsciiBlank c || decide (c = '>') || decide (c = '/'))) = t.name := htake
  have hdrop' : (('<' :: t.inside).drop 1).dropWhile
      (fun c => !(isAsciiBlank c || decide (c = '>') || decide (c = '/'))) =
        t.attributes.flatMap TagPart.source ++ t.close := hdrop
  simp only [htake', hdrop', hparts, hinside]
  simp [hself, hnone, bindsText, TagPart.bindsText, TagPart.withBinding, TagPart.source]

end TagText

/-! ## Tags that are parsed -/

theorem PlainName.begins (hname : PlainName name) (hgap : IsGap gap)
    (ha : ∀ c ∈ a, isAsciiBlank c = true) :
    Begins gap name a where
  gap_blank := hgap.2
  name_chars c hc := (hname.2 c hc).1
  no_slash h := hname.not_mem_slash (List.mem_of_mem_head? h)
  blanks_blank := ha
  nameless h := absurd h hname.1

theorem scanAttributes_cons (hp : p.Written) (htight : p.Tight) (hu : FollowsAttribute u)
    (hslash : p.Unquoted → ¬ ['/', '>'] <+: u) (fuel : Nat) (attributes : List (String × String)) :
    scanAttributes (fuel + 1) attributes (p.source ++ u) =
      scanAttributes fuel (addNew attributes p.asAttribute) u := by
  rcases p with gap | ⟨gap, name⟩ | ⟨gap, name, link, opening, raw, closing⟩ | source
  · cases hp
  · obtain ⟨hgap, hname⟩ := hp
    rw [TagPart.source, List.append_assoc]
    exact (hname.begins hgap (by simp)).alone hname.1 (hu.endsName hname.not_mem_slash)
      hu.dropWhile fuel attributes
  · obtain ⟨hgap, hname, ⟨a, b, rfl, ha, hb⟩, hvalue⟩ := hp
    have hbegins := hname.begins hgap ha
    have hsource : (TagPart.assigned gap name (a ++ '=' :: b) opening raw closing).source ++ u =
        gap ++ (name ++ (a ++ '=' :: (b ++ (opening ++ (raw ++ (closing ++ u)))))) := by
      simp [TagPart.source]
    rw [hsource]
    cases hvalue with
    | quoted hq hraw =>
      exact hbegins.quoted hb hq hraw fuel attributes u
    | group hg =>
      obtain ⟨r, rfl⟩ := exists_of_braceGroup? hg
      exact hbegins.unquoted hb (htight rfl) (by simp) (hu.head_unslashed (hslash rfl))
        (.inl (by simp)) fuel attributes
    | plain hne hraw =>
      have hhead : ∀ c ∈ tagMarks, raw.head? ≠ some c := fun c hc h =>
        (hraw c (List.mem_of_mem_head? h)).2 hc
      exact hbegins.unquoted hb (htight rfl) ⟨hhead _ (by simp [tagMarks]), hhead _ (by simp [tagMarks])⟩
        (hu.head_unslashed (hslash rfl)) (.inl hne) fuel attributes
  · cases hp

namespace TagText

variable {t : TagText}

/-- The attributes of a tag are read one after the other. -/
theorem scanAttributes_attributes (hgap : ∀ c ∈ t.gap, isAsciiBlank c = true) (hps : ∀ p ∈ ps, p.Written)
    (htight : ∀ p ∈ ps, p.Tight) (hlast : t.closed = true → t.gap = [] → ∀ p ∈ ps.getLast?, ¬ p.Unquoted)
    (u : List Char) :
    ∀ fuel attributes, ps.length < fuel →
      scanAttributes fuel attributes (ps.flatMap TagPart.source ++ (t.close ++ u)) =
      ((ps.map TagPart.asAttribute).foldl addNew attributes, t.closed, u) := by
  induction ps with
  | nil =>
    intro fuel attributes hfuel
    obtain ⟨fuel, rfl⟩ := Nat.exists_eq_add_of_le' (show 1 ≤ fuel from hfuel)
    rcases hclosed : t.closed with _ | _
    · simpa [close, hclosed] using scanAttributes_end hgap fuel attributes u
    · simpa [close, hclosed] using scanAttributes_close hgap fuel attributes u
  | cons p ps ih =>
    intro fuel attributes hfuel
    obtain ⟨hp, hps⟩ := List.forall_mem_cons.mp hps
    obtain ⟨hpt, htight⟩ := List.forall_mem_cons.mp htight
    obtain ⟨fuel, rfl⟩ := Nat.exists_eq_add_of_le' (show 1 ≤ fuel from Nat.one_le_of_lt hfuel)
    have hu := followsAttribute (t := t) hps hgap u
    have hslash := fun h => not_slash hps hgap hlast h u
    rw [List.flatMap_cons, List.append_assoc, scanAttributes_cons hp hpt hu hslash, List.map_cons,
      List.foldl_cons]
    exact ih hps htight (getLast?_of_cons hlast) fuel _ (Nat.lt_of_succ_lt_succ hfuel)

theorem length_le_source (hps : ∀ p ∈ ps, p.Written) :
    ps.length ≤ (ps.flatMap TagPart.source).length := by
  induction ps with
  | nil => exact Nat.zero_le _
  | cons p ps ih =>
    obtain ⟨hp, hps⟩ := List.forall_mem_cons.mp hps
    obtain ⟨gap, c, r, hsource, -⟩ := hp.source_eq
    have := ih hps
    simp only [List.flatMap_cons, hsource, List.length_append, List.length_cons]
    omega

theorem Written.readEvent (h : t.Written) (ht : t.Tight) (u : List Char) :
    LiveMarkup.readEvent ('<' :: (t.inside ++ u)) = t.element.opened t.closed u := by
  have hinside : t.inside ++ u = t.name ++ (t.attributes.flatMap TagPart.source ++ (t.close ++ u)) := by
    simp [inside]
  have hletter : (t.inside ++ u).head?.any Char.isAlpha = true := by
    have := h.letter
    rcases hname : t.name with _ | ⟨c, name⟩ <;> rw [hname] at this
    · cases this
    · rwa [hinside, hname]
  have hlen := length_le_source h.attributes
  have hscan := scanAttributes_attributes h.gap h.attributes ht.values ht.last u
    ((t.attributes.flatMap TagPart.source ++ (t.close ++ u)).length + 1) []
    (by rw [List.length_append]; omega)
  have hends := (followsAttribute h.attributes h.gap u).head
  rw [readEvent_tag hletter, hinside, readElement_eq (fun c hc => (h.name c hc).1) hends hscan]
  rfl

end TagText

/-! ## Tags with their bindings -/

theorem plainName_bindingStart (h : PlainName name) : PlainName (bindingStart ++ name) := by
  refine ⟨List.append_ne_nil_of_right_ne_nil _ h.1, List.forall_mem_append.mpr ⟨?_, h.2⟩⟩
  simp [bindingStart, tagMarks, isNameChar, isAsciiBlank]

theorem plainName_textBinding : PlainName textBinding := by
  have h : PlainName ['t', 'e', 'x', 't'] := ⟨by decide, by simp [tagMarks, isNameChar, isAsciiBlank]⟩
  exact plainName_bindingStart h

theorem isLink_equals : IsLink ['='] :=
  ⟨[], [], rfl, by simp, by simp⟩

theorem TagPart.Written.bound (h : p.Written) : p.bound.Written := by
  rcases p with gap | ⟨gap, name⟩ | ⟨gap, name, link, opening, raw, closing⟩ | source
  · cases h
  · exact h
  · obtain ⟨hgap, hname, -⟩ := id h
    simp only [TagPart.bound]
    split
    · split
      · split
        · exact ⟨hgap, hname, isLink_equals, .quoted (.inl rfl) (not_mem_escapeQuote raw)⟩
        · exact h
      · split
        · exact h
        · exact ⟨hgap, plainName_bindingStart hname, isLink_equals,
            .quoted (.inl rfl) (not_mem_escapeQuote _)⟩
    · exact h
  · cases h

namespace TagText

variable {t : TagText}

theorem Written.bound (h : t.Written) : t.bound.Written where
  letter := h.letter
  name := h.name
  attributes := by
    simp only [TagText.bound, List.forall_mem_map]
    exact fun p hp => (h.attributes p hp).bound
  gap := h.gap

theorem Written.withText (h : t.Written) (s : List Char) : (t.withText s).Written where
  letter := h.letter
  name := h.name
  attributes := by
    refine List.forall_mem_append.mpr ⟨h.bound.attributes, List.forall_mem_singleton.mpr ?_⟩
    refine ⟨⟨by simp, ?_⟩, plainName_textBinding, isLink_equals, .quoted (.inl rfl) ?_⟩
    · exact List.forall_mem_append.mpr ⟨h.gap, by simp [isAsciiBlank]⟩
    · exact not_mem_escapeAll (.inr rfl) _
  gap := by simp [TagText.withText]

theorem Tight.withText (h : t.bound.Tight) (s : List Char) : (t.withText s).Tight where
  values := List.forall_mem_append.mpr ⟨h.values,
    List.forall_mem_singleton.mpr (by simp [TagPart.Tight])⟩
  last h := by cases h

theorem addAttribute_bound (h : t.closed = false) (s : List Char) :
    addAttribute ('<' :: t.bound.inside) (textAttribute s) = '<' :: (t.withText s).inside := by
  have hinside : '<' :: t.bound.inside =
      '<' :: (t.name ++ (t.bound.attributes.flatMap TagPart.source ++ t.gap)) ++ ['>'] := by
    simp [inside, close, TagText.bound, h]
  rw [addAttribute, hinside, List.dropLast_concat]
  simp [inside, close, TagText.withText, TagText.bound, textAttribute, TagPart.source]

end TagText

end LiveMarkup
