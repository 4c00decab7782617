import LiveMarkup.Proofs.Markup.Canonical
import LiveMarkup.Proofs.Template.Pieces

/-!
# No expression is left unbound

In parsed markup the texts outside of scripts, stylesheets and elements whose text is bound are shown
as they are (`Tree.literalTexts`).  When regular markup is bound, none of them has an expression any
more (`not_hasExpression_bindMarkup`): no piece that is read adds such a text (`BoundStep.clean`).
-/

namespace LiveMarkup

open Text

variable {s rest : List Char} {cs : List Char} {t : Tree} {ts : List Tree} {b : Builder} {e : Element}
  {attributes : List (String × String)} {p : TagPart}

/-- The text that a node is. -/
def NodeData.text? : NodeData → Option String
  | .text s => some s
  | _ => none

/-- Whether the texts inside of a node are a script or a stylesheet, or are replaced. -/
def NodeData.hidesTexts : NodeData → Bool
  | .element e => e.isRaw || e.hasAttribute "pado-text"
  | _ => false

namespace Tree

/-- The texts that are shown as they are: those outside of scripts and stylesheets and of elements
whose text is bound. -/
def literalTexts : List Tree → List String
  | [] => []
  | .node data ts :: rest =>
    data.text?.toList ++ (if data.hidesTexts then [] else literalTexts ts) ++ literalTexts rest

/-- No text that is shown as it is has an expression. -/
def Clean (ts : List Tree) : Prop :=
  ∀ s ∈ literalTexts ts, hasExpression s.toList = false

theorem clean_nil : Clean [] := by
  simp [Clean, literalTexts]

theorem literalTexts_cons (t : Tree) (ts : List Tree) :
    literalTexts (t :: ts) = literalTexts [t] ++ literalTexts ts := by
  obtain ⟨data, us⟩ := t
  simp only [literalTexts, List.append_nil]

theorem clean_iff : Clean ts ↔ ∀ t ∈ ts, Clean [t] := by
  induction ts with
  | nil => simp [Clean, literalTexts]
  | cons t ts ih =>
    rw [List.forall_mem_cons, ← ih, Clean, literalTexts_cons, List.forall_mem_append]
    rfl

theorem clean_node {data : NodeData} (h : ∀ s, data.text? = some s → hasExpression s.toList = false)
    (hts : data.hidesTexts = true ∨ Clean ts) : Clean [.node data ts] := by
  simp only [Clean, literalTexts, List.append_nil, List.forall_mem_append, Option.mem_toList]
  refine ⟨h, ?_⟩
  by_cases hhides : data.hidesTexts = true
  · simp [hhides]
  · rw [if_neg hhides]
    exact hts.resolve_left hhides

theorem clean_leaf {data : NodeData} (h : ∀ s, data.text? = some s → hasExpression s.toList = false) :
    Clean [.leaf data] :=
  clean_node h (.inr clean_nil)

theorem clean_element (h : e.isRaw = true ∨ e.hasAttribute "pado-text" = true ∨ Clean ts) :
    Clean [.node (.element e) ts] := by
  refine clean_node (by simp [NodeData.text?]) ?_
  rwa [NodeData.hidesTexts, Bool.or_eq_true, or_assoc]

end Tree

/-- An open element that is free of expressions; if its text is bound, what is inside need not be. -/
def Pending.Clean (p : Pending) : Prop :=
  p.element.hasAttribute "pado-text" = true ∨ ∀ t ∈ p.inside, Tree.Clean [t]

theorem buildInvariant_clean : BuildInvariant (fun t => Tree.Clean [t]) Pending.Clean where
  fill hp ht := hp.imp_right fun hinside => List.forall_mem_cons.mpr ⟨ht, hinside⟩
  close hp := Tree.clean_element (.inr (hp.imp_right fun hinside =>
    Tree.clean_iff.mpr fun t ht => hinside t (List.mem_reverse.mp ht)))

/-- All that is put together so far is free of expressions. -/
abbrev Builder.Clean (b : Builder) : Prop :=
  b.Meets (fun t => Tree.Clean [t]) Pending.Clean

namespace Builder.Clean

theorem add (h : b.Clean) (ht : Tree.Clean [t]) : (b.add t).Clean :=
  Meets.add buildInvariant_clean h ht

theorem addAll (h : b.Clean) (hts : Tree.Clean ts) : (ts.foldl Builder.add b).Clean :=
  Meets.addAll buildInvariant_clean h (Tree.clean_iff.mp hts)

theorem start (h : b.Clean) (e : Element) : (b.step (.start e)).Clean :=
  Meets.start h (.inr fun _ ht => absurd ht List.not_mem_nil)

/-- Inside of an element whose text is bound any texts may stand. -/
theorem bound (h : b.Clean) (he : e.hasAttribute "pado-text" = true) (ts : List Tree) :
    (ts.foldl Builder.add (b.step (.start e))).Clean := by
  rw [Builder.step, Builder.foldl_add_pending { element := e } b.pending b.top]
  exact ⟨h.top, List.forall_mem_cons.mpr ⟨.inl he, h.pending⟩⟩

end Builder.Clean

/-! ## Bound texts -/

theorem isSome_lookup_addNew {a a' : String × String} {before : List (String × String)} (ha : a.1 ≠ "")
    (h : a = a' ∨ (before.lookup a.1).isSome = true) :
    ((addNew before a').lookup a.1).isSome = true := by
  unfold addNew
  split
  · rename_i hold
    rcases h with rfl | h
    · simpa [ha] using hold
    · exact h
  · rw [List.lookup_append]
    rcases h with rfl | h
    · simp
    · simp [h]

theorem isSome_lookup_foldl_addNew {a : String × String} (ha : a.1 ≠ "")
    (before : List (String × String))
    (h : a ∈ attributes ∨ (before.lookup a.1).isSome = true) :
    ((attributes.foldl addNew before).lookup a.1).isSome = true := by
  induction attributes generalizing before with
  | nil => exact h.resolve_left List.not_mem_nil
  | cons a' attributes ih =>
    rw [List.foldl_cons]
    rw [List.mem_cons, or_assoc, or_left_comm] at h
    exact ih _ (h.imp_right (isSome_lookup_addNew ha))

theorem bound_of_bindsText (h : p.bindsText = true) : p.bound = p ∧ p.asAttribute.1 = "pado-text" := by
  rcases p with gap | ⟨gap, name⟩ | ⟨gap, name, link, opening, raw, closing⟩ | source
  · cases h
  · rw [TagPart.bindsText, decide_eq_true_eq] at h
    rw [TagPart.asAttribute, h]
    exact ⟨rfl, rfl⟩
  · rw [TagPart.bindsText, decide_eq_true_eq] at h
    rw [TagPart.asAttribute, TagPart.bound, h]
    refine ⟨?_, rfl⟩
    split
    · rw [if_neg (by decide), if_pos (by decide)]
    · rfl
  · cases h

theorem hasAttribute_of_bindsText {t : TagText} (h : t.bindsText = true) :
    t.bound.element.hasAttribute "pado-text" = true := by
  obtain ⟨p, hp, hbinds⟩ := List.any_eq_true.mp h
  obtain ⟨hself, hname⟩ := bound_of_bindsText hbinds
  have hmem : p.asAttribute ∈ t.bound.attributes.map TagPart.asAttribute :=
    List.mem_map.mpr ⟨p, List.mem_map.mpr ⟨p, hp, hself⟩, rfl⟩
  have := isSome_lookup_foldl_addNew (by rw [hname]; decide) [] (.inl hmem)
  rwa [hname] at this

theorem clean_textTrees (hamp : '&' ∉ s) (h : hasExpression s = false) : Tree.Clean (textTrees s) := by
  unfold textTrees
  split
  · exact Tree.clean_nil
  · rw [decodeEntities_eq_self hamp]
    refine Tree.clean_leaf fun s' hs' => ?_
    obtain rfl := Option.some.inj hs'
    rwa [String.toList_ofList]

theorem clean_boundTrees (hamp : '&' ∉ s) : Tree.Clean (boundTrees s) := by
  have hblank : ∀ {a : List Char}, (∀ c ∈ a, isBlank c = true) → Tree.Clean (textTrees a) :=
    fun {a} ha =>
    clean_textTrees (fun h => absurd (ha _ h) (by decide))
      (hasExpression_eq_false fun h => absurd (ha _ h) (by decide))
  unfold boundTrees
  split
  · refine Tree.clean_iff.mpr (List.forall_mem_append.mpr ⟨?_, List.forall_mem_cons.mpr ⟨?_, ?_⟩⟩)
    · exact Tree.clean_iff.mp (hblank fun c hc => List.mem_takeWhile_imp hc)
    · exact Tree.clean_leaf (by simp [NodeData.text?])
    · exact Tree.clean_iff.mp (hblank fun c hc => List.mem_takeWhile_imp (List.mem_reverse.mp hc))
  · rename_i hno
    exact clean_textTrees hamp (by simpa using hno)

theorem clean_bracket : Tree.Clean [.leaf (.text "<")] :=
  Tree.clean_leaf fun s hs => by
    obtain rfl := Option.some.inj hs
    exact hasExpression_eq_false (by simp)

/-! ## Bound markup -/

/-- No piece of regular markup that is bound adds a text with an expression. -/
theorem BoundStep.clean {b' : Builder} {run : List Char → Prop} {tag : TagText → Prop}
    (h : BoundStep run tag cs b rest b') (hamp : '&' ∉ cs) (hb : b.Clean) : b'.Clean := by
  cases h with
  | text => exact hb.addAll (clean_boundTrees fun h => hamp (List.mem_append_left _ h))
  | boundDoctype => exact (hb.add clean_bracket).addAll (clean_boundTrees fun h => hamp (by simp [h]))
  | static _ _ hevent =>
    cases hevent with
    | comment | doctype => exact hb.add (Tree.clean_leaf (by simp [NodeData.text?]))
    | bracket => exact hb.add clean_bracket
    | stop tag => exact Builder.Meets.stop buildInvariant_clean hb tag
  | whole => exact hb.add (Tree.clean_element (.inr (.inr Tree.clean_nil)))
  | start => exact hb.start _
  | leaf => exact hb.start _
  | bound _ _ _ _ hbinds => exact hb.bound (hasAttribute_of_bindsText hbinds) _
  | raw _ _ hraw => exact hb.add (Tree.clean_element (.inl hraw))

/-- In regular markup without references every expression is bound: when what was bound is parsed, no
text outside of scripts, stylesheets and elements whose text is bound has one. -/
theorem not_hasExpression_bindMarkup (h : Regular IsBindable (fun _ => True) cs) (hamp : '&' ∉ cs) :
    ∀ s ∈ Tree.literalTexts ((Document.parse (bindMarkup cs)).subtree Document.root).children,
      hasExpression s.toList = false := by
  have hclean := h.foldl_bindMarkup (b := {}) (motive := fun cs b => '&' ∉ cs ∧ b.Clean) (fun _ hs => hs)
    (fun hstep hsuffix hb => ⟨fun h => hb.1 (hsuffix.subset h), hstep.clean hb.1 hb.2⟩) ⟨hamp, .empty⟩
  rw [Document.subtree_parse]
  exact Tree.clean_iff.mpr (hclean.2.finish buildInvariant_clean)

theorem not_hasExpression_bindMarkup_mixed :
    Regular IsBindable (fun _ => True) mixedMarkup ∧ '&' ∉ mixedMarkup ∧
      ∀ s ∈ Tree.literalTexts ((Document.parse (bindMarkup mixedMarkup)).subtree Document.root).children,
        hasExpression s.toList = false := by
  have hregular : Regular IsBindable (fun _ => True) mixedMarkup :=
    regular_mixedMarkup (fun _ => .inr) trivial trivial trivial
  have hamp : '&' ∉ mixedMarkup := by decide +kernel
  exact ⟨hregular, hamp, not_hasExpression_bindMarkup hregular hamp⟩

/-- A script that closes itself is bound like one that does not, and read like an empty element. -/
theorem not_hasExpression_bindMarkup_closed_script :
    ¬ ∀ s ∈ Tree.literalTexts
        ((Document.parse (bindMarkup "<script/>{x}".toList)).subtree Document.root).children,
      hasExpression s.toList = false := by
  have hparse : Tree.parse (bindMarkup "<script/>{x}".toList) =
      [.leaf (.element { tag := "script" }), .leaf (.text "{x}")] := rfl
  intro h
  rw [Document.subtree_parse, hparse] at h
  exact absurd (h "{x}" (by simp [Tree.children, Tree.leaf, Tree.literalTexts, NodeData.text?]))
    (by decide)

end LiveMarkup
