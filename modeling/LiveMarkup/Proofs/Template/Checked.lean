import LiveMarkup.Proofs.Expr.Lines
import LiveMarkup.Proofs.Markup.Canonical
import LiveMarkup.Proofs.Template.Rounds
import LiveMarkup.Proofs.Template.Spelled
import LiveMarkup.Template.Compile

/-!
# Checking a template and showing it

A compilation that checks expressions warns of an expression that cannot be read if and only if there
is one among those that are evaluated when the page is shown, provided the markup is well spelled and
no expression has braces that do not belong to each other around it (`compile_reports_iff`).

The texts of bindings are decoded twice when they are checked, and once when they are shown, so a
reference that is written in a text makes a difference (`compile_misses_reference`).
-/

namespace LiveMarkup

open Text

variable {cs rest source : List Char} {o : CompileOptions} {c : Compiled} {f f' : Findings}

/-! ## Warnings -/

/-- The warning is that an expression cannot be read. -/
def Warning.IsInvalid : Warning → Prop
  | invalidExpression .. => True
  | _ => False

/-- There is a warning that an expression cannot be read. -/
def Reports (ws : List Warning) : Prop :=
  ∃ w ∈ ws, w.IsInvalid

theorem reports_append {ws ws' : List Warning} : Reports (ws ++ ws') ↔ Reports ws ∨ Reports ws' := by
  simp only [Reports, List.mem_append, or_and_right, exists_or]

theorem reports_flatMap {α : Type} {xs : List α} {g : α → List Warning} :
    Reports (xs.flatMap g) ↔ ∃ x ∈ xs, Reports (g x) := by
  simp only [Reports, List.mem_flatMap]
  constructor
  · rintro ⟨w, ⟨x, hx, hw⟩, hinvalid⟩
    exact ⟨x, hx, w, hw, hinvalid⟩
  · rintro ⟨x, hx, w, hw, hinvalid⟩
    exact ⟨w, ⟨x, hx, hw⟩, hinvalid⟩

theorem not_reports_nil : ¬ Reports [] := by
  rintro ⟨w, hw, -⟩
  cases hw

theorem not_reports_cons {w : Warning} {ws : List Warning} (h : ¬ w.IsInvalid) (hws : ¬ Reports ws) :
    ¬ Reports (w :: ws) := by
  rintro ⟨w', hw, hinvalid⟩
  rcases List.mem_cons.mp hw with rfl | hw
  · exact h hinvalid
  · exact hws ⟨w', hw, hinvalid⟩

/-! ## What directives are warned of -/

theorem not_reports_blocksFrom {group : String} : ∀ {fuel : Nat} {kind : BlockKind}
    {condition : Option String} {segment : List Char} {pos : Nat} {cs : List Char},
    ¬ Reports (blocksFrom group fuel kind condition segment pos cs).2
  | 0, _, _, _, _, _ => not_reports_nil
  | fuel + 1, kind, condition, segment, pos, cs => by
    rw [blocksFrom]
    split
    · exact not_reports_nil
    · simp only
      split
      · exact not_reports_cons id not_reports_nil
      · exact not_reports_nil
    · simp only
      split
      · exact not_reports_blocksFrom
      · exact not_reports_cons id not_reports_blocksFrom

theorem not_isInvalid_openDirective {kind : DirectiveKind} {pos : Nat} {w : Warning}
    (h : openDirective kind pos cs = .ok (.error w)) : ¬ w.IsInvalid := by
  unfold openDirective at h
  split at h
  · cases h
    exact id
  · split at h
    · split at h
      · cases h
        exact id
      · split at h <;> cases h
    · split at h
      · cases h
        exact id
      · split at h
        · cases h
          exact id
        · cases h

/-- No directive is taken for an expression that cannot be read. -/
theorem not_reports_compileFrom : ∀ {fuel pos : Nat} {cs out : List Char} {f f' : Findings},
    compileFrom fuel pos cs f = .ok (out, f') → ¬ Reports f.warnings → ¬ Reports f'.warnings
  | 0, _, _, _, _, _, h, hf => by
    cases h
    exact hf
  | _ + 1, _, [], _, _, _, h, hf => by
    cases h
    exact hf
  | fuel + 1, pos, c :: cs, out, f, f', h, hf => by
    cases compileFrom_round h with
    | pass hws h1 =>
      refine not_reports_compileFrom h1 ?_
      rw [reports_append]
      rintro (h | ⟨w, hw, hinvalid⟩)
      · exact hf h
      · obtain ⟨kind, pos, r, ho⟩ := hws w hw
        exact not_isInvalid_openDirective ho hinvalid
    | condition _ _ h1 h2 =>
      refine not_reports_compileFrom h2 ?_
      rw [reports_append]
      exact not_or.mpr ⟨not_reports_compileFrom h1 hf, not_reports_blocksFrom⟩
    | loop _ _ _ h1 h2 =>
      have hbody := not_reports_compileFrom h1 hf
      exact not_reports_compileFrom h2 hbody

/-! ## What expressions are warned of -/

/-- An expression that is checked as it stands cannot be read. -/
def Unreadable (es : List (List Char)) : Prop :=
  ∃ e ∈ es, ¬ IsExpression (trim e)

theorem reports_checkExpression {location : String} {e : List Char} :
    Reports (checkExpression location e) ↔ ¬ IsExpression (trim e) := by
  unfold checkExpression IsExpression
  rcases parseExpr (trim e) with err | tree
  · exact iff_of_true ⟨_, List.mem_singleton_self _, trivial⟩ (by rintro ⟨_, h⟩; cases h)
  · exact iff_of_false not_reports_nil (not_not.mpr ⟨tree, rfl⟩)

theorem reports_checkBinding {location : String} {name raw : List Char} :
    Reports (checkBinding location name raw) ↔ Unreadable (foundExpressions name raw) := by
  unfold checkBinding foundExpressions Unreadable
  simp only
  split_ifs
  · exact iff_of_false not_reports_nil (by simp)
  · simp only [reports_flatMap, reports_checkExpression]
  · simp only [reports_checkExpression, List.mem_singleton, exists_eq_left]

theorem reports_checkMarkup {location markup : String} :
    Reports (checkMarkup location markup) ↔ Unreadable (expressionsAfter none markup.toList) := by
  have hbindings : bindings markup.toList = bindingsAfter none markup.toList := rfl
  simp only [checkMarkup, reports_flatMap, hbindings, reports_checkBinding, Unreadable,
    expressionsAfter, List.mem_flatMap]
  constructor
  · rintro ⟨b, hb, e, he, h⟩
    exact ⟨e, ⟨b, hb, he⟩, h⟩
  · rintro ⟨e, ⟨b, hb, he⟩, h⟩
    exact ⟨b, hb, e, he, h⟩

/-! ## Templates -/

/-- The pieces of markup in a template. -/
def Template.pieces (t : Template) : List String :=
  t.html :: (t.conditions.flatMap fun g => g.blocks.map Block.content) ++
    t.loops.map LoopDefinition.content

/-- The conditions and the arrays of a template. -/
def Template.headers (t : Template) : List (List Char) :=
  (t.conditions.flatMap fun g => g.conditions.map String.toList) ++ t.loops.map fun l => l.array.toList

/-- The expressions in the elements of parsed markup. -/
def markupExpressions (markup : String) : List (List Char) :=
  ((Tree.dataAll ((Document.parse markup.toList).subtree Document.root).children).filterMap
    NodeData.element?).flatMap Element.expressions

/-- The expressions of a template that are evaluated when a page is shown. -/
def Template.evaluated (t : Template) : List (List Char) :=
  t.headers ++ t.pieces.flatMap markupExpressions

theorem mem_markupExpressions_iff {markup : String} (h : Spelled markup.toList) {e : List Char} :
    e ∈ markupExpressions markup ↔ e ∈ expressionsAfter none markup.toList := by
  rw [h.expressionsAfter_eq, markupExpressions, Document.subtree_parse]
  have hperm := ((data_parse markup.toList).filterMap NodeData.element?).flatMap_right Element.expressions
  rw [Tree.children, hperm.mem_iff, List.filterMap_flatMap, List.flatMap_assoc]
  rfl

theorem reports_checkMarkup_spelled {location markup : String} (h : Spelled markup.toList) :
    Reports (checkMarkup location markup) ↔ Unreadable (markupExpressions markup) := by
  rw [reports_checkMarkup, Unreadable, Unreadable]
  simp only [mem_markupExpressions_iff h]

theorem reports_check_group {g : ConditionGroup} (h : ∀ b ∈ g.blocks, Spelled b.content.toList) :
    Reports g.check ↔ Unreadable (g.conditions.map String.toList) ∨
      ∃ b ∈ g.blocks, Unreadable (markupExpressions b.content) := by
  have hblocks : Reports g.check ↔ (∃ b ∈ g.blocks, ∃ e ∈ b.condition.toList,
      ¬ IsExpression (trim e.toList)) ∨ ∃ b ∈ g.blocks, Unreadable (markupExpressions b.content) := by
    simp only [ConditionGroup.check, reports_flatMap, reports_append, reports_checkExpression,
      and_or_left, exists_or]
    exact or_congr_right (exists_congr fun b => and_congr_right fun hb =>
      reports_checkMarkup_spelled (h b hb))
  rw [hblocks]
  refine or_congr_left ⟨?_, ?_⟩
  · rintro ⟨b, hb, e, he, hread⟩
    have hcondition : e ∈ g.conditions := List.mem_filterMap.mpr ⟨b, hb, Option.mem_toList.mp he⟩
    exact ⟨e.toList, List.mem_map_of_mem hcondition, hread⟩
  · rintro ⟨_, he, hread⟩
    obtain ⟨e, hcondition, rfl⟩ := List.mem_map.mp he
    obtain ⟨b, hb, hbe⟩ := List.mem_filterMap.mp hcondition
    exact ⟨b, hb, e, Option.mem_toList.mpr hbe, hread⟩

theorem unreadable_append {es es' : List (List Char)} :
    Unreadable (es ++ es') ↔ Unreadable es ∨ Unreadable es' := by
  simp only [Unreadable, List.mem_append, or_and_right, exists_or]

theorem unreadable_flatMap {α : Type} {xs : List α} {g : α → List (List Char)} :
    Unreadable (xs.flatMap g) ↔ ∃ x ∈ xs, Unreadable (g x) := by
  simp only [Unreadable, List.mem_flatMap]
  constructor
  · rintro ⟨e, ⟨x, hx, he⟩, hread⟩
    exact ⟨x, hx, e, he, hread⟩
  · rintro ⟨x, hx, e, he, hread⟩
    exact ⟨e, ⟨x, hx, he⟩, hread⟩

/-- What is checked in well-spelled markup is what is evaluated. -/
theorem reports_check {t : Template} (h : ∀ m ∈ t.pieces, Spelled m.toList) :
    Reports t.check ↔ Unreadable t.evaluated := by
  simp only [Template.pieces, List.cons_append, List.forall_mem_cons, List.forall_mem_append,
    List.forall_mem_map, List.forall_mem_flatMap] at h
  obtain ⟨hhtml, hgroups, hloops⟩ := h
  have hconditions : Reports (t.conditions.flatMap ConditionGroup.check) ↔
      (∃ g ∈ t.conditions, Unreadable (g.conditions.map String.toList)) ∨
        ∃ g ∈ t.conditions, ∃ b ∈ g.blocks, Unreadable (markupExpressions b.content) := by
    rw [reports_flatMap, ← exists_or]
    refine exists_congr fun g => ?_
    rw [← and_or_left]
    exact and_congr_right fun hg => reports_check_group (hgroups g hg)
  have hloop : Reports (t.loops.flatMap LoopDefinition.check) ↔
      (∃ l ∈ t.loops, ¬ IsExpression (trim l.array.toList)) ∨
        ∃ l ∈ t.loops, Unreadable (markupExpressions l.content) := by
    rw [reports_flatMap, ← exists_or]
    refine exists_congr fun l => ?_
    rw [← and_or_left, LoopDefinition.check, reports_append, reports_checkExpression]
    exact and_congr_right fun hl => or_congr_right (reports_checkMarkup_spelled (hloops l hl))
  have hheaders : Unreadable t.headers ↔
      (∃ g ∈ t.conditions, Unreadable (g.conditions.map String.toList)) ∨
        ∃ l ∈ t.loops, ¬ IsExpression (trim l.array.toList) := by
    rw [Template.headers, unreadable_append, unreadable_flatMap]
    simp [Unreadable]
  have hmarkups : Unreadable (t.pieces.flatMap markupExpressions) ↔
      Unreadable (markupExpressions t.html) ∨
        (∃ g ∈ t.conditions, ∃ b ∈ g.blocks, Unreadable (markupExpressions b.content)) ∨
          ∃ l ∈ t.loops, Unreadable (markupExpressions l.content) := by
    simp only [Template.pieces, List.cons_append, List.flatMap_cons, List.flatMap_append,
      List.flatMap_map, List.flatMap_assoc, unreadable_append, unreadable_flatMap]
  rw [Template.check, reports_append, reports_append, reports_checkMarkup_spelled hhtml, hconditions,
    hloop, Template.evaluated, unreadable_append, hheaders, hmarkups]
  exact iff_of_eq (by ac_rfl)

/-- A compilation that checks expressions warns of one that cannot be read just if one that is evaluated
cannot be read. -/
theorem compile_reports_iff (hcheck : o.checkExpressions = true) (h : compile o source = .ok c)
    (hmarkup : ∀ m ∈ c.template.pieces, Spelled m.toList)
    (hupright : ∀ e ∈ c.template.evaluated, Upright e) :
    (∃ w ∈ c.warnings, w.IsInvalid) ↔
      ∃ e ∈ c.template.evaluated, ¬ IsExpression (normalize e) := by
  obtain ⟨⟨skeleton, f⟩, hfrom, h⟩ := bind_eq_ok_iff.mp h
  cases h
  have hdirectives := not_reports_compileFrom hfrom not_reports_nil
  simp only [hcheck, if_true]
  have hreports := reports_check hmarkup
  refine reports_append.trans ?_
  rw [or_iff_right hdirectives, hreports]
  refine exists_congr fun e => and_congr_right fun he => ?_
  rw [isExpression_normalize_iff (hupright e he)]

/-- A condition and a loop, with an attribute and texts that are bound. -/
def checkedSource : List Char :=
  ("\x7b@if(a)\x7d<p class=\x7ba\x7d>\x7bx >\x7d</p>\x7b/if\x7d" ++
    "\x7b@loop xs as x\x7d\x7bx\x7d\x7b/loop\x7d").toList

/-- What becomes of it. -/
def checkedTemplate : Template where
  html := "<!-- if:page_if_0 --><!-- loop:page_loop_0 -->"
  conditions := [⟨"page_if_0",
    [⟨.first, some "a", "<p pado-class=\"a\" pado-text=\"\x7bx &gt;\x7d\"></p>"⟩]⟩]
  loops := [⟨"page_loop_0", "xs", "x", "<span pado-text=\"\x7bx\x7d\"></span>"⟩]

theorem spelled_checkedTemplate : ∀ m ∈ checkedTemplate.pieces, Spelled m.toList := by
  have hspelled : ∀ {cs : List Char} {m : String}, Regular Bindable TagText.Bindable cs →
      ¬ bindingStart <:+: lowerCase cs → m.toList = bindMarkup cs → Spelled m.toList :=
    fun h hcs hm => hm ▸ h.spelled hcs
  have hbindable : ∀ {s : List Char}, '<' ∉ s → '&' ∉ s → Bindable s := fun hs hamp =>
    ⟨.inr hs, fun _ => .of_not_mem hamp⟩
  have hparagraph : paragraphTag.Bindable := by
    have hname : IsBindingName "class".toList :=
      ⟨by decide, by simp; decide, by decide, fun h => absurd h (by decide)⟩
    have hclass : TagPart.Found (.assigned [' '] (bindingStart ++ "class".toList) ['='] ['"']
        "a".toList ['"']) :=
      .binding hname (by simp) (by decide +kernel)
    exact ⟨List.forall_mem_singleton.mpr hclass, by decide +kernel⟩
  have hend : Regular Bindable TagText.Bindable _ := .endTag (s := ['p']) (by decide) .nil
  have hleaf := Regular.text (s := "\x7bx >\x7d".toList) (by decide) (by decide +kernel)
    (hbindable (by decide) (by decide)) hend
  have hopen := Regular.tag written_paragraphTag ⟨List.forall_mem_singleton.mpr nofun, nofun⟩
    hparagraph rfl (.inr (.inr (.inl rfl))) hleaf
  have htext : Regular Bindable TagText.Bindable _ := .text (s := "\x7bx\x7d".toList) (by decide)
    (by decide +kernel) (hbindable (by decide) (by decide)) .nil
  have hloop : Regular Bindable TagText.Bindable _ :=
    .comment (s := " loop:page_loop_0 ".toList) (by decide +kernel) .nil
  have hmarkers := Regular.comment (s := " if:page_if_0 ".toList) (by decide +kernel) hloop
  simp only [checkedTemplate, Template.pieces, List.flatMap_cons, List.flatMap_nil, List.map_cons,
    List.map_nil, List.append_nil, List.cons_append, List.nil_append, List.forall_mem_cons]
  exact ⟨hspelled hmarkers (by decide +kernel) (by decide +kernel),
    hspelled hopen (by decide +kernel) (by decide +kernel),
    hspelled htext (by decide +kernel) (by decide +kernel), nofun⟩

theorem compile_reports_iff_checkedSource : ∃ c,
    compile { checkExpressions := true } checkedSource = .ok c ∧
      (∀ m ∈ c.template.pieces, Spelled m.toList) ∧ (∀ e ∈ c.template.evaluated, Upright e) ∧
      ((∃ w ∈ c.warnings, w.IsInvalid) ↔
        ∃ e ∈ c.template.evaluated, ¬ IsExpression (normalize e)) := by
  have hcompile : ∃ c, compile { checkExpressions := true } checkedSource = .ok c ∧
      c.template = checkedTemplate := ⟨_, by cbv, by cbv⟩
  obtain ⟨c, hc, htemplate⟩ := hcompile
  have hspelled := htemplate ▸ spelled_checkedTemplate
  have hexpressions : c.template.evaluated =
      ["a".toList, "xs".toList, "a".toList, "x >".toList, "x".toList] := by
    have hmarkers : markupExpressions "<!-- if:page_if_0 --><!-- loop:page_loop_0 -->" = [] := by
      rw [markupExpressions, Document.subtree_parse]
      cbv
    have hparagraph : markupExpressions
        "<p pado-class=\"a\" pado-text=\"\x7bx &gt;\x7d\"></p>" = ["a".toList, "x >".toList] := by
      rw [markupExpressions, Document.subtree_parse]
      cbv
    have htext : markupExpressions "<span pado-text=\"\x7bx\x7d\"></span>" = ["x".toList] := by
      rw [markupExpressions, Document.subtree_parse]
      cbv
    simp [htemplate, Template.evaluated, Template.headers, Template.pieces, checkedTemplate,
      ConditionGroup.conditions, hmarkers, hparagraph, htext]
  have hupright : ∀ e ∈ c.template.evaluated, Upright e := by
    rw [hexpressions]
    simp only [List.forall_mem_cons]
    refine ⟨?_, ?_, ?_, ?_, ?_, List.forall_mem_nil _⟩ <;>
      exact .of_head (by unfold HasEscapedBreak; decide) (by decide)
  exact ⟨c, hc, hspelled, hupright, compile_reports_iff rfl hc hspelled hupright⟩

/-- A reference in a text is decoded when the text is checked. -/
theorem compile_misses_reference :
    ∃ c, compile { checkExpressions := true } "<p>\x7ba &lt; b\x7d</p>".toList = .ok c ∧
      ¬ (∃ w ∈ c.warnings, w.IsInvalid) ∧
      ∃ e ∈ c.template.evaluated, ¬ IsExpression (normalize e) := by
  have hcompile : compile { checkExpressions := true } "<p>\x7ba &lt; b\x7d</p>".toList =
      .ok ⟨⟨"<p pado-text=\"\x7ba &amp;lt; b\x7d\"></p>", [], [], none⟩, []⟩ := by
    cbv
  refine ⟨_, hcompile, (by rintro ⟨w, hw, -⟩; cases hw), "a &lt; b".toList, ?_, ?_⟩
  · have hmarkup : markupExpressions "<p pado-text=\"\x7ba &amp;lt; b\x7d\"></p>" =
        ["a &lt; b".toList] := by
      rw [markupExpressions, Document.subtree_parse]
      cbv
    simp [Template.evaluated, Template.headers, Template.pieces, hmarkup]
  · rintro ⟨e, he⟩
    have : parseExpr (normalize "a &lt; b".toList) = .error (.unexpectedCharacter 2) := by cbv
    rw [this] at he
    cases he

end LiveMarkup
