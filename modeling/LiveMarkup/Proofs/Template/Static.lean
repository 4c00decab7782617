import LiveMarkup.Proofs.Markup.Canonical
import LiveMarkup.Proofs.Template.Pieces

/-!
# The static page stays

Binding markup leaves the elements, the comments and the doctypes of a page as they are
(`kept_bindMarkup`): what is parsed before and after differs in texts, in the elements that hold bound
texts, and in attributes that are bound (`Tree.Kept`).  Each piece that is read keeps this relation
between the two builders (`BoundStep.kept`).
-/

namespace LiveMarkup

open Text

variable {s rest : List Char} {cs : List Char} {t : TagText} {p : TagPart} {ts us : List Tree}
  {b b' : Builder} {e e' : Element}

/-! ## What stays -/

/-- What an attribute becomes when it is bound, given its value as it is written. -/
def boundAttribute (name raw : List Char) : String × String :=
  match singleExpression? raw with
  | some e =>
    if startsWith "on".toList name || startsWith bindingStart name then
      (String.ofList name, String.ofList (decodeEntities raw))
    else (String.ofList (bindingStart ++ name), String.ofList (trim e))
  | none => (String.ofList name, String.ofList (decodeEntities raw))

/-- An attribute, and what it is once it is bound. -/
def AttributeKept (a a' : String × String) : Prop :=
  ∃ name raw, a = (String.ofList name, String.ofList (decodeEntities raw)) ∧ a' = boundAttribute name raw

/-- An element, and the element with its attributes bound, and maybe with its text bound too. -/
def Element.Kept (e e' : Element) : Prop :=
  ∃ attributes, List.Forall₂ AttributeKept e.attributes attributes ∧
    (e' = { e with attributes } ∨ ∃ s, hasExpression s = true ∧
      e' = { e with attributes := attributes ++ [("pado-text", String.ofList (trim s))] })

/-- Trees, and the trees with the same elements, comments and doctypes that come of binding them. -/
inductive Tree.Kept : List Tree → List Tree → Prop
  | nil : Kept [] []
  | textBefore {s : String} {ts us : List Tree} : Kept ts us → Kept (.leaf (.text s) :: ts) us
  | textAfter {s : String} {ts us : List Tree} : Kept ts us → Kept ts (.leaf (.text s) :: us)
  | wrapper {s : List Char} {ts us : List Tree} : hasExpression s = true → Kept ts us →
    Kept ts (.leaf (.element (wrapper s)) :: us)
  | comment {s : String} {ts us : List Tree} : Kept ts us →
    Kept (.leaf (.comment s) :: ts) (.leaf (.comment s) :: us)
  | doctype {s : String} {ts us : List Tree} : Kept ts us →
    Kept (.leaf (.doctype s) :: ts) (.leaf (.doctype s) :: us)
  | element {e e' : Element} {ts ts' us us' : List Tree} : e.Kept e' → Kept ts us → Kept ts' us' →
    Kept (.node (.element e) ts :: ts') (.node (.element e') us :: us')

namespace Tree

theorem Kept.append {ts' us' : List Tree} (h : Kept ts us) (h' : Kept ts' us') :
    Kept (ts ++ ts') (us ++ us') := by
  induction h with
  | nil => exact h'
  | textBefore _ ih => exact .textBefore ih
  | textAfter _ ih => exact .textAfter ih
  | wrapper hs _ ih => exact .wrapper hs ih
  | comment _ ih => exact .comment ih
  | doctype _ ih => exact .doctype ih
  | element he hts _ _ ih => exact .element he hts ih

theorem Kept.doctype_mem {s : String} (h : Kept ts us) (hmem : .leaf (.doctype s) ∈ ts) :
    .leaf (.doctype s) ∈ us := by
  induction h with
  | nil => exact hmem
  | textBefore _ ih => exact ih (List.mem_of_ne_of_mem (by simp [leaf]) hmem)
  | textAfter _ ih => exact List.mem_cons_of_mem _ (ih hmem)
  | wrapper _ _ ih => exact List.mem_cons_of_mem _ (ih hmem)
  | comment _ ih => exact List.mem_cons_of_mem _ (ih (List.mem_of_ne_of_mem (by simp [leaf]) hmem))
  | doctype _ ih =>
    rcases List.mem_cons.mp hmem with heq | hmem
    · exact heq ▸ List.mem_cons_self
    · exact List.mem_cons_of_mem _ (ih hmem)
  | element _ _ _ _ ih => exact List.mem_cons_of_mem _ (ih (List.mem_of_ne_of_mem (by simp [leaf]) hmem))

theorem kept_textTrees (s s' : List Char) : Kept (textTrees s) (textTrees s') := by
  unfold textTrees
  split <;> split
  exacts [.nil, .textAfter .nil, .textBefore .nil, .textBefore (.textAfter .nil)]

theorem kept_rawContent (s : List Char) : Kept (rawContent s) (rawContent s) := by
  unfold rawContent
  split
  exacts [.nil, .textBefore (.textAfter .nil)]

/-- A text is bound to texts and to an element that holds it. -/
theorem kept_boundTrees (s : List Char) : Kept (textTrees s) (boundTrees s) := by
  unfold boundTrees
  split
  · have hblank : Kept [] (textTrees (s.reverse.takeWhile isBlank).reverse) := kept_textTrees [] _
    have h := (kept_textTrees s (s.takeWhile isBlank)).append (.wrapper ‹_› hblank)
    rwa [List.append_nil] at h
  · exact kept_textTrees s s

end Tree

/-! ## Building the trees -/

/-- An open element, and the one that it is once it is bound. -/
structure Pending.Kept (p p' : Pending) : Prop where
  element : p.element.Kept p'.element
  inside : Tree.Kept p.inside.reverse p'.inside.reverse

/-- What is put together so far of a markup text, and of what it is bound to. -/
structure Builder.Kept (b b' : Builder) : Prop where
  top : Tree.Kept b.top.reverse b'.top.reverse
  pending : List.Forall₂ Pending.Kept b.pending b'.pending

theorem Element.Kept.tag (h : e.Kept e') : e'.tag = e.tag := by
  obtain ⟨_, -, rfl | ⟨_, -, rfl⟩⟩ := h <;> rfl

namespace Builder.Kept

theorem addAll (h : b.Kept b') (hts : Tree.Kept ts us) :
    (ts.foldl Builder.add b).Kept (us.foldl Builder.add b') := by
  obtain ⟨top, pending⟩ := b
  obtain ⟨top', pending'⟩ := b'
  obtain ⟨htop, hpending⟩ := h
  cases hpending with
  | nil =>
    rw [Builder.foldl_add_top, Builder.foldl_add_top]
    refine ⟨?_, .nil⟩
    simpa using htop.append hts
  | @cons p p' ps ps' hp hps =>
    rw [Builder.foldl_add_pending p, Builder.foldl_add_pending p']
    refine ⟨htop, .cons ⟨hp.element, ?_⟩ hps⟩
    simpa using hp.inside.append hts

theorem close (h : b.Kept b') : b.close.Kept b'.close := by
  obtain ⟨top, pending⟩ := b
  obtain ⟨top', pending'⟩ := b'
  obtain ⟨htop, hpending⟩ := h
  cases hpending with
  | nil => exact ⟨htop, .nil⟩
  | @cons p p' ps ps' hp hps =>
    have hrest : Builder.Kept ⟨top, ps⟩ ⟨top', ps'⟩ := ⟨htop, hps⟩
    exact hrest.addAll (.element hp.element hp.inside .nil)

theorem closeMany : ∀ (n : Nat) {b b' : Builder}, b.Kept b' → (b.closeMany n).Kept (b'.closeMany n)
  | 0, _, _, h => h
  | n + 1, _, _, h => closeMany n h.close

theorem findIdx?_eq {ps ps' : List Pending} (h : List.Forall₂ Pending.Kept ps ps') (tag : String) :
    ps.findIdx? (fun p => p.element.tag = tag) = ps'.findIdx? (fun p => p.element.tag = tag) := by
  induction h with
  | nil => rfl
  | cons hp _ ih => rw [List.findIdx?_cons, List.findIdx?_cons, hp.element.tag, ih]

theorem stop (h : b.Kept b') (tag : String) : (b.step (.stop tag)).Kept (b'.step (.stop tag)) := by
  rw [Builder.step, Builder.step, findIdx?_eq h.pending]
  split
  exacts [h.closeMany _, h]

theorem start (h : b.Kept b') (he : e.Kept e') : (b.step (.start e)).Kept (b'.step (.start e')) :=
  ⟨h.top, .cons ⟨he, .nil⟩ h.pending⟩

theorem finish (h : b.Kept b') : Tree.Kept b.finish b'.finish := by
  rw [Builder.finish, Builder.finish, h.pending.length_eq]
  exact (h.closeMany _).top

end Builder.Kept

/-! ## Tags -/

/-- An attribute that keeps its value when it is put into quotes as a handler. -/
def TagPart.Settled : TagPart → Prop
  | assigned _ name _ opening raw _ =>
    opening = [] → singleExpression? raw ≠ none → startsWith "on".toList (lowerCase name) = true →
      decodeEntities raw = raw
  | _ => True

/-- A tag that is read as it is written, and in which no two attributes get or lose a common name when
they are bound. -/
structure TagText.Settled (t : TagText) : Prop where
  tight : t.Tight
  attributes : ∀ p ∈ t.attributes, p.Settled
  names : ∀ p ∈ t.attributes, ∀ q ∈ t.attributes,
    p.asAttribute.1 = q.asAttribute.1 ↔ p.bound.asAttribute.1 = q.bound.asAttribute.1

theorem TagPart.Written.kept (hp : p.Written) (h : p.Settled) :
    AttributeKept p.asAttribute p.bound.asAttribute := by
  rcases p with gap | ⟨gap, name⟩ | ⟨gap, name, link, opening, raw, closing⟩ | source
  · cases hp
  · exact ⟨lowerCase name, [], rfl, rfl⟩
  · refine ⟨lowerCase name, raw, rfl, ?_⟩
    rcases hsingle : singleExpression? raw with _ | e
    · simp only [TagPart.bound, boundAttribute, hsingle, TagPart.asAttribute]
    · simp only [TagPart.bound, boundAttribute, hsingle]
      split
      · rename_i hon
        rw [hon, Bool.true_or, if_pos rfl]
        split
        · rename_i hopen
          rw [TagPart.asAttribute, decodeEntities_escapeQuote, h hopen (by simp [hsingle]) hon]
        · rfl
      · rename_i hon
        rw [Bool.not_eq_true] at hon
        rw [hon, Bool.false_or]
        split
        · rfl
        · rw [TagPart.asAttribute, decodeEntities_escapeQuote, lowerCase, List.map_append]
          rfl
  · cases hp

theorem TagPart.Written.name_ne (hp : p.Written) : p.asAttribute.1 ≠ "" := by
  have hne : ∀ {name : List Char}, PlainName name → String.ofList (lowerCase name) ≠ "" := by
    intro name hname h
    have := congrArg String.toList h
    rw [String.toList_ofList] at this
    exact hname.1 (List.map_eq_nil_iff.mp this)
  rcases p with gap | ⟨gap, name⟩ | ⟨gap, name, link, opening, raw, closing⟩ | source
  · cases hp
  · exact hne hp.2
  · exact hne hp.2.1
  · cases hp

theorem addNew_map {α : Type} {f : α → String × String} {x : α} (ms : List α) (hne : (f x).1 ≠ "") :
    addNew (ms.map f) (f x) = if ∃ m ∈ ms, (f x).1 = (f m).1 then ms.map f else (ms ++ [x]).map f := by
  unfold addNew
  simp [hne]

/-- Attributes of which the same ones have a common name are left out alike. -/
theorem foldl_addNew_map {α : Type} {f g : α → String × String} {all xs ms : List α}
    (hms : ms ⊆ all) (hxs : xs ⊆ all)
    (hf : ∀ x ∈ all, (f x).1 ≠ "") (hg : ∀ x ∈ all, (g x).1 ≠ "")
    (hnames : ∀ x ∈ all, ∀ y ∈ all, (f x).1 = (f y).1 ↔ (g x).1 = (g y).1) :
    ∃ ms' ⊆ all, (xs.map f).foldl addNew (ms.map f) = ms'.map f ∧
      (xs.map g).foldl addNew (ms.map g) = ms'.map g := by
  induction xs generalizing ms with
  | nil => exact ⟨ms, hms, rfl, rfl⟩
  | cons x xs ih =>
    obtain ⟨hx, hxs⟩ := List.cons_subset.mp hxs
    have hsame : (∃ m ∈ ms, (f x).1 = (f m).1) ↔ ∃ m ∈ ms, (g x).1 = (g m).1 :=
      exists_congr fun m => and_congr_right fun hm => hnames x hx m (hms hm)
    simp only [List.map_cons, List.foldl_cons]
    rw [addNew_map ms (hf x hx), addNew_map ms (hg x hx)]
    by_cases h : ∃ m ∈ ms, (f x).1 = (f m).1
    · rw [if_pos h, if_pos (hsame.mp h)]
      exact ih hms hxs
    · rw [if_neg h, if_neg (mt hsame.mpr h)]
      exact ih (List.append_subset.mpr ⟨hms, List.cons_subset.mpr ⟨hx, List.nil_subset _⟩⟩) hxs

namespace TagText.Settled

theorem attributes_kept (h : t.Settled) (ht : t.Written) :
    List.Forall₂ AttributeKept t.element.attributes t.bound.element.attributes := by
  obtain ⟨ms, hms, hbefore, hafter⟩ := foldl_addNew_map (f := TagPart.asAttribute)
    (g := fun p => p.bound.asAttribute) (List.nil_subset t.attributes) (List.Subset.refl t.attributes)
    (fun p hp => (ht.attributes p hp).name_ne) (fun p hp => (ht.attributes p hp).bound.name_ne) h.names
  have hbound : t.bound.element.attributes = ms.map fun p => p.bound.asAttribute := by
    rw [← hafter, TagText.element, TagText.bound, List.map_map]
    rfl
  rw [hbound, show t.element.attributes = ms.map TagPart.asAttribute from hbefore,
    List.forall₂_map_left_iff,
    List.forall₂_map_right_iff, List.forall₂_same]
  exact fun p hp => (ht.attributes p (hms hp)).kept (h.attributes p (hms hp))

theorem kept (h : t.Settled) (ht : t.Written) : t.element.Kept t.bound.element :=
  ⟨_, h.attributes_kept ht, .inl rfl⟩

theorem kept_withText (h : t.Settled) (ht : t.Written) (hs : hasExpression s = true) :
    t.element.Kept (t.withText s).element := by
  rw [TagText.element_withText, addNew]
  split
  · exact ⟨_, h.attributes_kept ht, .inl rfl⟩
  · exact ⟨_, h.attributes_kept ht, .inr ⟨s, hs, rfl⟩⟩

end TagText.Settled

/-! ## Pieces -/

theorem BoundStep.kept {b₀ : Builder} (h : BoundStep (fun s => '<' ∉ s) TagText.Settled cs b rest b')
    (hb : b₀.Kept b) :
    ∃ b₁ : Builder, (events cs).foldl Builder.step b₀ = (events rest).foldl Builder.step b₁ ∧
      b₁.Kept b' := by
  cases h with
  | text hs hrest => exact ⟨_, foldl_text hs hrest, hb.addAll (Tree.kept_boundTrees _)⟩
  | boundDoctype hs => exact absurd List.mem_cons_self hs
  | static hne hread hevent =>
    refine ⟨_, foldl_events hne hread, ?_⟩
    cases hevent with
    | comment s => exact hb.addAll (.comment .nil)
    | doctype s => exact hb.addAll (.doctype .nil)
    | bracket => exact hb.addAll (.textBefore (.textAfter .nil))
    | stop tag => exact hb.stop tag
  | whole ht htag _ hwhole =>
    exact ⟨_, foldl_events (by simp) (ht.readEvent_whole htag.tight hwhole rest),
      hb.addAll (.element (htag.kept ht) .nil .nil)⟩
  | start ht htag hraw hopen =>
    exact ⟨_, foldl_events (by simp) (ht.readEvent_start htag.tight hraw hopen rest),
      hb.start (htag.kept ht)⟩
  | @leaf t s _ _ ht htag hraw hopen hs hexpr hrest =>
    refine ⟨_, ?_, (hb.start (htag.kept_withText ht hexpr)).addAll (Tree.kept_textTrees s [])⟩
    rw [foldl_events (by simp) (ht.readEvent_start htag.tight hraw hopen _), foldl_text hs hrest]
  | @bound t s _ _ ht htag hraw hopen _ hs hrest =>
    refine ⟨_, ?_, (hb.start (htag.kept ht)).addAll (Tree.kept_textTrees s s)⟩
    rw [foldl_events (by simp) (ht.readEvent_start htag.tight hraw hopen _), foldl_text hs hrest]
  | raw ht htag _ hread =>
    exact ⟨_, foldl_events (by simp) (hread htag.tight),
      hb.addAll (.element (htag.kept ht) (Tree.kept_rawContent _) .nil)⟩

/-- What regular markup is read as, and what it is read as once it is bound, have the same static
parts. -/
theorem Regular.kept_foldl {b₀ : Builder} (h : Regular (fun s => '<' ∉ s) TagText.Settled cs)
    (hb : b₀.Kept b) :
    ((events cs).foldl Builder.step b₀).Kept ((events (bindMarkup cs)).foldl Builder.step b) := by
  -- the source is read along: `b₁` is what it has become where the rest of it begins
  obtain ⟨b₁, heq, hb₁⟩ := h.foldl_bindMarkup
    (motive := fun rest b => ∃ b₁ : Builder,
      (events cs).foldl Builder.step b₀ = (events rest).foldl Builder.step b₁ ∧ b₁.Kept b)
    (fun _ => .inr)
    (fun hstep _ ⟨b₁, heq, hb₁⟩ =>
      let ⟨b₂, heq₂, hb₂⟩ := hstep.kept hb₁
      ⟨b₂, heq.trans heq₂, hb₂⟩)
    ⟨b₀, rfl, hb⟩
  rwa [heq]

/-- When regular markup is bound, what is parsed has the elements, comments and doctypes of what is
parsed of the markup itself. -/
theorem kept_bindMarkup (h : Regular (fun s => '<' ∉ s) TagText.Settled cs) :
    Tree.Kept ((Document.parse cs).subtree Document.root).children
      ((Document.parse (bindMarkup cs)).subtree Document.root).children := by
  have hempty : Builder.Kept {} {} := ⟨.nil, .nil⟩
  rw [Document.subtree_parse, Document.subtree_parse]
  exact (h.kept_foldl hempty).finish

theorem settled_paragraphTag : paragraphTag.Settled where
  tight := ⟨by simp [paragraphTag, TagPart.Tight, isAsciiBlank], by simp [paragraphTag]⟩
  attributes := by
    have hname : startsWith "on".toList (lowerCase "class".toList) = false := by decide
    simp only [paragraphTag, List.forall_mem_singleton, TagPart.Settled, hname, Bool.false_eq_true]
    exact fun _ _ => False.elim
  names := by simp [paragraphTag]

theorem settled_scriptTag : scriptTag.Settled where
  tight := ⟨by simp [scriptTag], by simp [scriptTag]⟩
  attributes := by simp [scriptTag]
  names := by simp [scriptTag]

theorem settled_bindingTag : bindingTag.Settled where
  tight := ⟨by simp [bindingTag, TagPart.Tight], by simp [bindingTag]⟩
  attributes := by simp [bindingTag, TagPart.Settled]
  names := by simp [bindingTag]

theorem kept_bindMarkup_mixed : Regular (fun s => '<' ∉ s) TagText.Settled mixedMarkup ∧
    Tree.Kept ((Document.parse mixedMarkup).subtree Document.root).children
      ((Document.parse (bindMarkup mixedMarkup)).subtree Document.root).children := by
  have hregular : Regular (fun s => '<' ∉ s) TagText.Settled mixedMarkup :=
    regular_mixedMarkup (fun _ h => h) settled_paragraphTag settled_scriptTag settled_bindingTag
  exact ⟨hregular, kept_bindMarkup hregular⟩

/-- An expression in the text after a doctype takes the doctype with it into the text that is bound. -/
theorem kept_bindMarkup_bound_doctype :
    ¬ Tree.Kept ((Document.parse "<!DOCTYPE html>{x}".toList).subtree Document.root).children
      ((Document.parse (bindMarkup "<!DOCTYPE html>{x}".toList)).subtree Document.root).children := by
  have hbefore : Tree.parse "<!DOCTYPE html>{x}".toList =
      [.leaf (.doctype "DOCTYPE html"), .leaf (.text "{x}")] := rfl
  have hafter : Tree.parse (bindMarkup "<!DOCTYPE html>{x}".toList) =
      [.leaf (.text "<"),
        .leaf (.element { tag := "span", attributes := [("pado-text", "!DOCTYPE html>{x}")] })] := rfl
  rw [Document.subtree_parse, Document.subtree_parse, hbefore, hafter]
  intro h
  have hmem : Tree.leaf (.doctype "DOCTYPE html") ∈
      [Tree.leaf (.text "<"),
        .leaf (.element { tag := "span", attributes := [("pado-text", "!DOCTYPE html>{x}")] })] :=
    h.doctype_mem List.mem_cons_self
  simp [Tree.leaf] at hmem

end LiveMarkup
