import LiveMarkup.Proofs.Markup.Building
import LiveMarkup.Proofs.Markup.Escaping
import LiveMarkup.Proofs.Markup.Reading
import LiveMarkup.Proofs.Page.Shown

/-!
# Written markup is read back

Trees are legible (`Tree.Legible`) if nothing in a name, a comment, a doctype or the text of a script
ends it too early.  Legible trees that are written out are read as the same trees, with no live
property set (`parse_renderAll`): the pieces of each tree add just that tree to those read so far
(`foldl_renderAll`).
-/

namespace LiveMarkup

open Text

variable {e : Element} {s : String} {t : Tree} {ts us : List Tree} {b : Builder} {u : List Char}
  {attributes : List (String × String)}

/-! ## Legible trees -/

/-- A name of an attribute that is read as it is written. -/
def ReadableName (name : String) : Prop :=
  name ≠ "" ∧ name.toList.head? ≠ some '/' ∧ ∀ c ∈ name.toList, isNameChar c = true ∧ c.toLower = c

/-- An element whose start tag is read as it is written, and whose end tag closes it. -/
structure Element.Readable (e : Element) : Prop where
  letter : e.tag.toList.head?.any Char.isAlpha = true
  tag : ∀ c ∈ e.tag.toList, isTagNameEnd c = false ∧ c.toLower = c
  /-- The tag does not end with a blank, which an end tag would lose. -/
  trimmed : trim e.tag.toList = e.tag.toList
  names : ∀ a ∈ e.attributes, ReadableName a.1
  distinct : e.Distinct

/-- An element without live properties. -/
def Element.unset (e : Element) : Element :=
  { e with value := none, flags := [] }

@[simp] theorem Element.isVoid_unset (e : Element) : e.unset.isVoid = e.isVoid := rfl

@[simp] theorem Element.isRaw_unset (e : Element) : e.unset.isRaw = e.isRaw := rfl

/-- The content of an element that holds text: nothing, or a text in which the element does not end. -/
def Element.IsRawContent (e : Element) (ts : List Tree) : Prop :=
  ts = [] ∨ ∃ s : String, s ≠ "" ∧ ts = [.leaf (.text s)] ∧
    ¬ ('<' :: '/' :: e.tag.toList) <:+: lowerCase s.toList

namespace Tree

/-- Trees that can be written out, given what elements and which texts before which trees can be. -/
inductive Legible (element : Element → Prop) (text : String → List Tree → Prop) : List Tree → Prop
  | nil : Legible element text []
  | text {s : String} {rest : List Tree} : text s rest → Legible element text rest →
    Legible element text (.leaf (.text s) :: rest)
  | comment {s : String} {rest : List Tree} : ¬ "-->".toList <:+: s.toList → Legible element text rest →
    Legible element text (.leaf (.comment s) :: rest)
  | doctype {s : String} {rest : List Tree} : trim s.toList = s.toList → '>' ∉ s.toList →
    ¬ "--".toList <+: s.toList → Legible element text rest →
    Legible element text (.leaf (.doctype s) :: rest)
  | void {e : Element} {rest : List Tree} : element e → e.isVoid = true → Legible element text rest →
    Legible element text (.leaf (.element e) :: rest)
  | raw {e : Element} {ts rest : List Tree} : element e → e.isRaw = true → e.IsRawContent ts →
    Legible element text rest → Legible element text (.node (.element e) ts :: rest)
  | element {e : Element} {ts rest : List Tree} : element e → e.isVoid = false → e.isRaw = false →
    Legible element text ts → Legible element text rest →
    Legible element text (.node (.element e) ts :: rest)

/-- Whether trees start with a text. -/
def startsWithText : List Tree → Bool
  | .node (.text _) _ :: _ => true
  | _ => false

/-- A text that is there and that no text follows. -/
def Apart (s : String) (rest : List Tree) : Prop :=
  s ≠ "" ∧ startsWithText rest = false

/-- Trees without the live properties of their elements. -/
def unsetAll : List Tree → List Tree
  | [] => []
  | .node data ts :: rest =>
    .node (data.mapElement Element.unset) (unsetAll ts) :: unsetAll rest

theorem unsetAll_cons (data : NodeData) (ts rest : List Tree) : unsetAll (.node data ts :: rest) =
    .node (data.mapElement Element.unset) (unsetAll ts) :: unsetAll rest := by
  rw [unsetAll]

theorem unsetAll_leaf (data : NodeData) (rest : List Tree) :
    unsetAll (.leaf data :: rest) = .leaf (data.mapElement Element.unset) :: unsetAll rest := by
  rw [leaf, unsetAll_cons, unsetAll]
  rfl

theorem Legible.mono {element element' : Element → Prop} {text text' : String → List Tree → Prop}
    (helement : ∀ e, element e → element' e) (htext : ∀ s ts, text s ts → text' s ts)
    (h : Legible element text ts) : Legible element' text' ts := by
  induction h with
  | nil => exact .nil
  | text h1 _ ih => exact .text (htext _ _ h1) ih
  | comment h1 _ ih => exact .comment h1 ih
  | doctype h1 h2 h3 _ ih => exact .doctype h1 h2 h3 ih
  | void h1 h2 _ ih => exact .void (helement _ h1) h2 ih
  | raw h1 h2 h3 _ ih => exact .raw (helement _ h1) h2 h3 ih
  | element h1 h2 h3 _ _ ih ih' => exact .element (helement _ h1) h2 h3 ih ih'

end Tree

theorem Element.IsRawContent.unsetAll (h : e.IsRawContent ts) : Tree.unsetAll ts = ts := by
  rcases h with rfl | ⟨s, -, rfl, -⟩
  · rw [Tree.unsetAll]
  · rw [Tree.unsetAll_leaf, Tree.unsetAll]
    rfl

/-! ## Start tags -/

theorem lowerCase_eq_self {cs : List Char} (h : ∀ c ∈ cs, c.toLower = c) : lowerCase cs = cs := by
  rw [lowerCase, List.map_congr_left h, List.map_id']

theorem foldl_addNew (before : List (String × String)) (hne : ∀ a ∈ attributes, a.1 ≠ "")
    (hnd : ((before ++ attributes).map (·.1)).Nodup) :
    attributes.foldl addNew before = before ++ attributes := by
  induction attributes generalizing before with
  | nil => simp
  | cons a attributes ih =>
    obtain ⟨ha, hne⟩ := List.forall_mem_cons.mp hne
    have hnew : before.lookup a.1 = none := by
      rw [List.lookup_eq_none_iff]
      intro p hp
      rw [List.map_append, List.nodup_append'] at hnd
      exact bne_iff_ne.mpr fun heq =>
        hnd.2.2 (List.mem_map_of_mem hp) (by rw [← heq]; simp)
    rw [List.foldl_cons, addNew, if_neg (by simp [ha, hnew]), ih _ hne (by simpa using hnd)]
    simp

/-- An attribute as it is written in a start tag. -/
def attributeText (a : String × String) : List Char :=
  ' ' :: (a.1.toList ++ '=' :: '"' :: (escapeAttribute a.2.toList ++ ['"']))

theorem startTag_eq (e : Element) (u : List Char) : Tree.startTag e ++ u =
    '<' :: (e.tag.toList ++ (e.attributes.flatMap attributeText ++ '>' :: u)) := by
  simp only [Tree.startTag, List.cons_append, List.append_assoc, List.nil_append]
  rfl

namespace Element.Readable

theorem scanAttributes (h : ∀ a ∈ attributes, ReadableName a.1) (u : List Char) :
    ∀ (fuel : Nat) (before : List (String × String)), (attributes.flatMap attributeText).length < fuel →
      LiveMarkup.scanAttributes fuel before (attributes.flatMap attributeText ++ '>' :: u) =
        (attributes.foldl addNew before, false, u) := by
  induction attributes with
  | nil =>
    intro fuel before hfuel
    obtain ⟨fuel, rfl⟩ := Nat.exists_eq_add_of_le' (show 1 ≤ fuel from hfuel)
    simpa using scanAttributes_end (fun _ h => absurd h List.not_mem_nil) fuel before u
  | cons a attributes ih =>
    intro fuel before hfuel
    obtain ⟨⟨-, hslash, hchars⟩, h⟩ := List.forall_mem_cons.mp h
    obtain ⟨fuel, rfl⟩ := Nat.exists_eq_add_of_le' (show 1 ≤ fuel from Nat.one_le_of_lt hfuel)
    have hrest : (attributes.flatMap attributeText).length < fuel := by
      simp only [List.flatMap_cons, List.length_append, attributeText, List.length_cons] at hfuel
      omega
    have hbegins : Begins [' '] a.1.toList [] :=
      ⟨by simp [isAsciiBlank], fun c hc => (hchars c hc).1, hslash, fun _ h => absurd h List.not_mem_nil,
        fun _ => rfl⟩
    have hnone : ∀ c ∈ ([] : List Char), isAsciiBlank c = true := fun _ h => absurd h List.not_mem_nil
    have hstep := hbegins.quoted hnone (.inl rfl) (not_mem_escapeAttribute a.2.toList) fuel before
      (attributes.flatMap attributeText ++ '>' :: u)
    rw [decodeEntities_escapeAttribute, String.ofList_toList, lowerCase_eq_self fun c hc =>
      (hchars c hc).2,
      String.ofList_toList, ih h _ _ hrest] at hstep
    rw [List.foldl_cons, ← hstep]
    simp [attributeText]

theorem readEvent_startTag (h : e.Readable) (u : List Char) : readEvent (Tree.startTag e ++ u) =
    e.unset.opened false u := by
  have hletter : (e.tag.toList ++ (e.attributes.flatMap attributeText ++ '>' :: u)).head?.any
      Char.isAlpha = true := by
    have := h.letter
    rcases htag : e.tag.toList with _ | ⟨c, cs⟩
    · rw [htag] at this
      cases this
    · rwa [htag] at this
  have hends : (e.attributes.flatMap attributeText ++ '>' :: u).head?.all isTagNameEnd = true := by
    rcases e.attributes with _ | ⟨a, as⟩
    · rfl
    · rfl
  have hscan := scanAttributes h.names u ((e.attributes.flatMap attributeText ++ '>' :: u).length + 1) []
    (by rw [List.length_append]; omega)
  rw [foldl_addNew [] (fun a ha => (h.names a ha).1) h.distinct, List.nil_append] at hscan
  rw [startTag_eq, readEvent_tag hletter, readElement_eq (fun c hc => (h.tag c hc).1) hends hscan]
  have htag : (Element.ofTag (String.ofList e.tag.toList)).tag = e.tag := by
    rw [Element.ofTag, String.toList_ofList, lowerCase_eq_self fun c hc => (h.tag c hc).2,
      String.ofList_toList]
  rw [Element.ofTag] at htag ⊢
  simp only at htag ⊢
  rw [htag]
  rfl

end Element.Readable

/-! ## Written trees -/

namespace Tree

theorem renderAll_cons (t : Tree) (ts : List Tree) : renderAll (t :: ts) = t.render ++ renderAll ts := by
  rw [renderAll]

/-- After a text that stands apart comes a bracket, if anything does. -/
theorem Legible.head_renderAll {element : Element → Prop} {text : String → List Tree → Prop}
    (h : Legible element text ts) (hts : startsWithText ts = false) (hu : u.head?.all (· = '<') = true) :
    (renderAll ts ++ u).head?.all (· = '<') = true := by
  cases h with
  | nil => simpa [renderAll] using hu
  | text => cases hts
  | comment => simp [renderAll_cons, leaf, render]
  | doctype => simp [renderAll_cons, leaf, render]
  | void _ hvoid => simp [renderAll_cons, leaf, render, startTag, hvoid]
  | @raw e => by_cases hvoid : e.isVoid = true <;> simp [renderAll_cons, render, startTag, hvoid]
  | element _ hvoid => simp [renderAll_cons, render, startTag, hvoid]

end Tree

theorem not_isVoid_of_isRaw (h : e.isRaw = true) : e.isVoid = false := by
  rw [Element.isRaw, decide_eq_true_eq] at h
  simp only [rawTags, List.mem_cons, List.not_mem_nil, or_false] at h
  rcases h with h | h <;> rw [Element.isVoid, h] <;> decide

theorem readEvent_closing (h : e.Readable) (u : List Char) :
    readEvent ('<' :: '/' :: (e.tag.toList ++ '>' :: u)) = (.stop e.tag, u) := by
  have hgt : '>' ∉ e.tag.toList := fun hmem => absurd (h.tag _ hmem).1 (by decide)
  rw [readEvent_endTag hgt, h.trimmed, lowerCase_eq_self fun c hc => (h.tag c hc).2,
    String.ofList_toList]

/-- An element that holds text is read in one piece. -/
theorem opened_raw (h : e.Readable) (hraw : e.isRaw = true) (hts : e.IsRawContent ts) (u : List Char) :
    e.unset.opened false
        (Tree.renderRaw ts ++ '<' :: '/' :: (e.tag.toList ++ '>' :: u)) =
      (.whole (.node (.element e.unset) ts), u) := by
  have hlower := lowerCase_eq_self fun c hc => (h.tag c hc).2
  have hgt : '>' ∉ '<' :: '/' :: e.tag.toList := by
    simpa using fun hmem => absurd (h.tag _ hmem).1 (by decide)
  have hlt : '<' ∉ '/' :: e.tag.toList := by
    rw [Element.isRaw, decide_eq_true_eq] at hraw
    simp only [rawTags, List.mem_cons, List.not_mem_nil, or_false] at hraw
    rcases hraw with h | h <;> rw [h] <;> decide
  have hclosing : startsWithLower ('<' :: '/' :: e.tag.toList)
      ('<' :: '/' :: (e.tag.toList ++ '>' :: u)) = true := by
    rw [startsWithLower_iff]
    refine ⟨lowerCase ('>' :: u), ?_⟩
    conv_lhs => rw [← hlower]
    simp [lowerCase]
  have hend := scanToTagEnd_append hgt u
  rw [List.cons_append, List.cons_append] at hend
  have hscan : ∀ s, ¬ ('<' :: '/' :: e.tag.toList) <:+: lowerCase s →
      scanRaw ('<' :: '/' :: e.tag.toList) (s ++ '<' :: '/' :: (e.tag.toList ++ '>' :: u)) =
        (s, '<' :: '/' :: (e.tag.toList ++ '>' :: u)) :=
    fun s hs => scanRaw_append hlt hs (.inr hclosing)
  have htag : e.unset.tag = e.tag := rfl
  rw [Element.opened, Element.isVoid_unset, not_isVoid_of_isRaw hraw, if_neg (by decide),
    Element.isRaw_unset,
    if_pos hraw, htag]
  rcases hts with rfl | ⟨s, hne, rfl, hs⟩
  · have := hscan [] (by simp [lowerCase])
    rw [List.nil_append] at this
    simp only [Tree.renderRaw, List.nil_append, this, hend, if_true]
  · have hne : s.toList ≠ [] := fun h => hne (String.toList_eq_nil_iff.mp h)
    simp only [Tree.leaf, Tree.renderRaw, List.append_nil, hscan _ hs, hend, if_neg hne,
      String.ofList_toList]

theorem foldl_events {event : Event} {cs : List Char} (hne : cs ≠ []) (h : readEvent cs = (event, u)) :
    (events cs).foldl Builder.step b = (events u).foldl Builder.step (b.step event) := by
  rw [events_of_readEvent hne h, List.foldl_cons]

/-- The pieces of legible trees add just these trees to those that were read before. -/
theorem foldl_renderAll (h : Tree.Legible Element.Readable Tree.Apart ts) :
    ∀ {u : List Char} {b : Builder}, u.head?.all (· = '<') = true →
      (events (Tree.renderAll ts ++ u)).foldl Builder.step b =
        (events u).foldl Builder.step ((Tree.unsetAll ts).foldl Builder.add b) := by
  induction h with
  | nil =>
    intro u b _
    rw [Tree.renderAll, Tree.unsetAll]
    rfl
  | @text s rest hs hrest ih =>
    intro u b hu
    have hne : escapeText s.toList ≠ [] := fun h => hs.1 (String.toList_eq_nil_iff.mp (by
      rw [← decodeEntities_escapeText s.toList, h]
      rfl))
    have hread := readEvent_text hne (not_mem_escapeText s.toList) (hrest.head_renderAll hs.2 hu)
    rw [decodeEntities_escapeText, textEvent, String.ofList_toList] at hread
    rw [Tree.renderAll_cons, Tree.leaf, Tree.render, List.append_assoc,
      foldl_events (List.append_ne_nil_of_left_ne_nil hne _) hread, ih hu, ← Tree.leaf,
        Tree.unsetAll_leaf]
    rfl
  | @comment s rest hs hrest ih =>
    intro u b hu
    have hread := readEvent_comment hs (Tree.renderAll rest ++ u)
    rw [String.ofList_toList] at hread
    rw [Tree.renderAll_cons, Tree.leaf, Tree.render, List.append_assoc, List.append_assoc,
      List.append_assoc,
      foldl_events (by simp) hread, ih hu, ← Tree.leaf, Tree.unsetAll_leaf]
    rfl
  | @doctype s rest htrim hgt hdash hrest ih =>
    intro u b hu
    have hread := readEvent_doctype hgt hdash (Tree.renderAll rest ++ u)
    rw [htrim, String.ofList_toList] at hread
    have hsum : Tree.renderAll (.leaf (.doctype s) :: rest) ++ u =
        '<' :: '!' :: (s.toList ++ '>' :: (Tree.renderAll rest ++ u)) := by
      simp [Tree.renderAll_cons, Tree.leaf, Tree.render]
    rw [hsum, foldl_events (by simp) hread, ih hu, Tree.unsetAll_leaf]
    rfl
  | @void e rest he hvoid hrest ih =>
    intro u b hu
    have hread := he.readEvent_startTag (Tree.renderAll rest ++ u)
    rw [Element.opened, if_pos (by simpa using hvoid)] at hread
    rw [Tree.renderAll_cons, Tree.leaf, Tree.render, if_pos hvoid, List.append_assoc,
      foldl_events (by simp [Tree.startTag]) hread, ih hu, ← Tree.leaf, Tree.unsetAll_leaf]
    rfl
  | @raw e ts rest he hraw hts hrest ih =>
    intro u b hu
    have hread := he.readEvent_startTag
      (Tree.renderRaw ts ++ '<' :: '/' :: (e.tag.toList ++ '>' :: (Tree.renderAll rest ++ u)))
    rw [opened_raw he hraw hts] at hread
    have hsum : Tree.renderAll (.node (.element e) ts :: rest) ++ u = Tree.startTag e ++
        (Tree.renderRaw ts ++ '<' :: '/' :: (e.tag.toList ++ '>' :: (Tree.renderAll rest ++ u))) := by
      rw [Tree.renderAll_cons, Tree.render, if_neg (by simp [not_isVoid_of_isRaw hraw]), if_pos hraw]
      simp
    rw [hsum, foldl_events (by simp [Tree.startTag]) hread, ih hu, Tree.unsetAll_cons, hts.unsetAll]
    rfl
  | @element e ts rest he hvoid hraw hts hrest iht ihr =>
    intro u b hu
    have hread := he.readEvent_startTag
      (Tree.renderAll ts ++ '<' :: '/' :: (e.tag.toList ++ '>' :: (Tree.renderAll rest ++ u)))
    rw [Element.opened, if_neg (by simpa using hvoid), if_neg (by simpa using hraw)] at hread
    have htag : e.unset.tag = e.tag := rfl
    have hsum : Tree.renderAll (.node (.element e) ts :: rest) ++ u = Tree.startTag e ++
        (Tree.renderAll ts ++ '<' :: '/' :: (e.tag.toList ++ '>' :: (Tree.renderAll rest ++ u))) := by
      rw [Tree.renderAll_cons, Tree.render, if_neg (by simp [hvoid]), if_neg (by simp [hraw])]
      simp
    rw [hsum, foldl_events (by simp [Tree.startTag]) hread, iht (by simp),
      foldl_events (by simp) (readEvent_closing he _), ← htag, Builder.stop_foldl_add, ihr hu,
      Tree.unsetAll_cons]
    rfl

/-- Legible trees that are written out are read as the same trees, with no live property set. -/
theorem parse_renderAll (h : Tree.Legible Element.Readable Tree.Apart ts) :
    Tree.parse (Tree.renderAll ts) = Tree.unsetAll ts := by
  have hfold := foldl_renderAll h (u := []) (b := {}) rfl
  rw [List.append_nil, events_nil, List.foldl_nil, Builder.foldl_add_top, List.append_nil] at hfold
  rw [Tree.parse, Tree.ofEvents, hfold, Builder.finish]
  exact List.reverse_reverse _

end LiveMarkup
