import LiveMarkup.Proofs.Markup.Roundtrip
import LiveMarkup.Proofs.Page.Starting
import LiveMarkup.Proofs.Text.Trim

/-!
# Canonical markup

An element is canonical (`Element.Canonical`) if its tag and the names of its attributes consist of
small letters, digits and a few marks.  Legible trees of canonical elements are just what a document
shows that is parsed from their markup (`subtree_parse_renderAll`).
-/

namespace LiveMarkup

open Text

variable {e : Element} {ts : List Tree}

/-- Whether a character can stand in a canonical name. -/
def isCanonicalChar (c : Char) : Bool :=
  c.isLower || c.isDigit || c ∈ ['-', '_', ':', '.']

/-- Whether a text is a tag: a small letter, then small letters, digits and hyphens. -/
def isTagName (cs : List Char) : Bool :=
  cs.head?.any Char.isLower && cs.tail.all fun c => c.isLower || c.isDigit || c = '-'

/-- Whether a text is the name of an attribute: a small letter, then small letters, digits, hyphens,
underscores, colons and points. -/
def isAttributeName (cs : List Char) : Bool :=
  cs.head?.any Char.isLower && cs.tail.all isCanonicalChar

/-- An element with canonical names, the attributes of which have different ones. -/
structure Element.Canonical (e : Element) : Prop where
  tag : isTagName e.tag.toList = true
  names : ∀ a ∈ e.attributes, isAttributeName a.1.toList = true
  distinct : e.Distinct

theorem isCanonicalChar_spec {c : Char} (h : isCanonicalChar c = true) : isNameChar c = true ∧
    isTagNameEnd c = false ∧ c.toLower = c ∧ isBlank c = false := by
  have hlt : c.toNat < 128 := by
    have hval : c.toNat = c.val.toNat := rfl
    simp [isCanonicalChar, Char.isLower, Char.isDigit, UInt32.le_iff_toNat_le] at h
    rcases h with (h | h) | rfl | rfl | rfl | rfl
    · omega
    · omega
    all_goals decide
  have hall : ∀ n < 128, isCanonicalChar (Char.ofNat n) = true → isNameChar (Char.ofNat n) = true ∧
      isTagNameEnd (Char.ofNat n) = false ∧ (Char.ofNat n).toLower = Char.ofNat n ∧
      isBlank (Char.ofNat n) = false := by decide
  simpa using hall c.toNat hlt (by simpa using h)

theorem isAlpha_of_isLower {c : Char} (h : c.isLower = true) : c.isAlpha = true := by
  simp [Char.isAlpha, h]

theorem isCanonicalChar_of_isTagName {cs : List Char} (h : isTagName cs = true) :
    ∀ c ∈ cs, isCanonicalChar c = true := by
  rcases cs with _ | ⟨c, cs⟩
  · cases h
  · simp only [isTagName, List.head?_cons, Option.any_some, List.tail_cons, Bool.and_eq_true,
      List.all_eq_true] at h
    refine List.forall_mem_cons.mpr ⟨by simp [isCanonicalChar, h.1], fun d hd => ?_⟩
    have := h.2 d hd
    simp only [Bool.or_eq_true, decide_eq_true_eq] at this
    rcases this with (h | h) | rfl
    · simp [isCanonicalChar, h]
    · simp [isCanonicalChar, h]
    · decide

theorem isCanonicalChar_of_isAttributeName {cs : List Char} (h : isAttributeName cs = true) :
    ∀ c ∈ cs, isCanonicalChar c = true := by
  rcases cs with _ | ⟨c, cs⟩
  · cases h
  · simp only [isAttributeName, List.head?_cons, Option.any_some, List.tail_cons, Bool.and_eq_true,
      List.all_eq_true] at h
    exact List.forall_mem_cons.mpr ⟨by simp [isCanonicalChar, h.1], h.2⟩

theorem Element.Canonical.readable (h : e.Canonical) : e.Readable where
  letter := by
    have htag := h.tag
    rcases hcs : e.tag.toList with _ | ⟨c, cs⟩ <;> rw [hcs] at htag
    · cases htag
    · exact isAlpha_of_isLower ((Bool.and_eq_true _ _).mp htag).1
  tag c hc := by
    obtain ⟨-, h1, h2, -⟩ := isCanonicalChar_spec (isCanonicalChar_of_isTagName h.tag c hc)
    exact ⟨h1, h2⟩
  trimmed := trim_eq_self fun c hc =>
    (isCanonicalChar_spec (isCanonicalChar_of_isTagName h.tag c hc)).2.2.2
  names a ha := by
    have hname := h.names a ha
    refine ⟨fun h0 => ?_, fun h0 => ?_, fun c hc => ?_⟩
    · rw [h0] at hname
      cases hname
    · have := isCanonicalChar_of_isAttributeName hname '/' (List.mem_of_mem_head? h0)
      exact absurd this (by decide)
    · obtain ⟨h1, -, h2, -⟩ := isCanonicalChar_spec (isCanonicalChar_of_isAttributeName hname c hc)
      exact ⟨h1, h2⟩
  distinct := h.distinct

/-! ## Documents -/

theorem Tree.unsetAll_eq_self : ∀ {ts : List Tree}, (∀ e, .element e ∈ dataAll ts → e.unset = e) →
    unsetAll ts = ts
  | [], _ => by rw [unsetAll]
  | .node data ts :: rest, h => by
    rw [dataAll_node] at h
    have hdata : data.mapElement Element.unset = data := by
      rcases data with _ | _ | e | s | s | s
      case element => exact congrArg _ (h e List.mem_cons_self)
      all_goals rfl
    rw [unsetAll_cons, hdata,
      unsetAll_eq_self fun e he => h e (List.mem_cons_of_mem _ (List.mem_append_left _ he)),
      unsetAll_eq_self fun e he => h e (List.mem_cons_of_mem _ (List.mem_append_right _ he))]

/-- What a document shows that is parsed are the trees of its markup. -/
theorem Document.subtree_parse (html : List Char) :
    (parse html).subtree root = .node .root (Tree.parse html) := by
  obtain ⟨f, sp, hsp, -, hst, hshape⟩ := parse_spec html
  rw [subtree_eq hst, hsp, ← Forest.trees_shape, hshape, Forest.trees_ofTrees]

/-- Trees with canonical names, texts apart, and comments, doctypes and scripts that do not end too
early are read back from their markup: all of them but live properties, which are not written. -/
theorem subtree_parse_renderAll (h : Tree.Legible Element.Canonical Tree.Apart ts) :
    (Document.parse (Tree.renderAll ts)).subtree Document.root = .node .root (Tree.unsetAll ts) ∧
      ((∀ e, .element e ∈ Tree.dataAll ts → e.unset = e) →
        (Document.parse (Tree.renderAll ts)).subtree Document.root = .node .root ts) := by
  have hparse := parse_renderAll (h.mono (fun _ => Element.Canonical.readable) fun _ _ => id)
  rw [Document.subtree_parse, hparse]
  exact ⟨rfl, fun hunset => by rw [Tree.unsetAll_eq_self hunset]⟩

/-- Markup of each kind, with characters of markup in values, texts and a script. -/
def Tree.mixed : List Tree :=
  [.leaf (.doctype "DOCTYPE html"),
    .node (.element { tag := "div", attributes := [("title", "\"a\" < b & c"), ("data-x:y_1.z", "")] })
      [.leaf (.text "1 < 2 &amp; x"), .leaf (.element { tag := "br" }), .leaf (.comment " if:a --")],
    .node (.element { tag := "script" }) [.leaf (.text "go(a < b, '</p>')")],
    .leaf (.text ">")]

theorem subtree_parse_renderAll_mixed : Tree.Legible Element.Canonical Tree.Apart Tree.mixed ∧
    (∀ e, .element e ∈ Tree.dataAll Tree.mixed → e.unset = e) ∧
    (Document.parse (Tree.renderAll Tree.mixed)).subtree Document.root = .node .root Tree.mixed := by
  have hdiv : Tree.Legible Element.Canonical Tree.Apart
      [.leaf (.text "1 < 2 &amp; x"), .leaf (.element { tag := "br" }), .leaf (.comment " if:a --")] :=
    .text ⟨by decide, rfl⟩ (.void ⟨by decide, by decide, List.nodup_nil⟩ rfl (.comment (by decide) .nil))
  have hlegible : Tree.Legible Element.Canonical Tree.Apart Tree.mixed :=
    .doctype (by decide) (by decide) (by decide)
      (.element ⟨by decide, by decide, by simp [Element.Distinct]⟩ rfl rfl hdiv
      (.raw ⟨by decide, by decide, List.nodup_nil⟩ rfl (.inr ⟨_, by decide, rfl, by decide⟩)
        (.text ⟨by decide, rfl⟩ .nil)))
  have hunset : ∀ e, .element e ∈ Tree.dataAll Tree.mixed → e.unset = e := by
    simp [Tree.mixed, Tree.leaf, Tree.dataAll_node, Tree.dataAll_nil, Element.unset]
  exact ⟨hlegible, hunset, (subtree_parse_renderAll hlegible).2 hunset⟩

end LiveMarkup
