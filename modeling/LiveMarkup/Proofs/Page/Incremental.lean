import Mathlib
import LiveMarkup.Proofs.Markup.Nodes
import LiveMarkup.Proofs.Page.Displays
import LiveMarkup.Proofs.Page.Expanded
import LiveMarkup.Proofs.Page.Weights

/-!
# Showing one snapshot after the other

A page of a template without loops that was shown several snapshots has the tree of a new page that
is shown all of them at once (`Page.performAll_same`).  This takes expressions in which names are
found as they are looked up (`IsPlain`): where fixed items are named, one in a string is named too, but
its array is not found there, and the page goes out of date.
-/

namespace LiveMarkup

open Text Document Forest View

/-- Names are looked up in an expression just as they are found in it. -/
structure IsPlain (namesItems : Bool) (c : List Char) : Prop where
  strings : '\\' ∉ c
  names : ∀ x ∈ textLookups (normalize c), isTracked x.toList = true
  items : namesItems = true → fixedAccesses (normalize c) = []

namespace Template

/-- The markup in a template: the skeleton and the contents of the blocks. -/
def markups (t : Template) : List (List Char) :=
  t.html.toList :: t.conditions.flatMap fun g => g.blocks.map (·.content.toList)

/-- The nodes in the markup of a template. -/
def nodes (t : Template) : List NodeData :=
  t.markups.flatMap fun html => Tree.dataAll (Tree.parse html)

/-- The expressions of a template: the conditions, and what nodes are bound to. -/
def expressions (t : Template) : List (List Char) :=
  (t.conditions.flatMap fun g => g.conditions.map String.toList) ++
    t.nodes.flatMap NodeData.expressions

end Template

variable {o : ViewOptions} {t : Template} {c : List Char}

theorem IsPlain.kept (h : IsPlain o.namesItems c) : Kept o c := by
  intro names s s' hagree hmeets
  have htracked : (Item.binding c).Tracked o s := by
    intro c' hc' x hx
    obtain rfl := List.mem_singleton.mp hc'
    rw [lookups_eq_textLookups h.items] at hx
    refine (mem_expressionVars_iff (fun hbreak => h.strings (hbreak.subset ?_)) hx).mpr (h.names x hx)
    simp
  have hpassed : (Item.binding c).meets (.keys names) = false := hmeets
  exact Outcome.value.inj (Item.outcome_eq_of_not_meets hagree hpassed htracked)

theorem loops_ofTemplate (hloops : t.loops = []) : (Records.ofTemplate t).loops = [] := by
  have hfold : ∀ (gs : List ConditionGroup) (r : Records),
      (gs.foldl Records.addGroup r).loops = r.loops := fun gs => by
    induction gs with
    | nil => exact fun _ => rfl
    | cons g gs ih => exact fun r => ih (r.addGroup g)
  rw [records_ofTemplate hloops, hfold]

section

variable (hplain : ∀ e, .element e ∈ t.nodes → e.Plain)
include hplain

theorem settles_of_mem_markups {html : List Char} (h : html ∈ t.markups) :
    ∀ n ∈ (ofTrees (Tree.parse html)).nodes, n.2.Settles := by
  intro n hn
  have hdata : n.2 ∈ Tree.dataAll (Tree.parse html) := List.mem_map_of_mem hn
  exact ⟨fun e he => distinct_of_mem_parse (he ▸ hdata),
    fun e he => hplain e (he ▸ List.mem_flatMap_of_mem h hdata)⟩

theorem settles_ofTemplate (hloops : t.loops = []) : (Records.ofTemplate t).Settles o := by
  intro name g hg b hb
  have hmem := (mem_of_group?_ofTemplate hloops hg).1
  have hsettles := settles_of_mem_markups hplain
    (List.mem_cons_of_mem _ (List.mem_flatMap_of_mem hmem (List.mem_map_of_mem hb)))
  unfold raw
  split
  · exact (altered_mapElements _ _).forall_nodes
      (fun _ => settles_mapElement Element.harmless_completeHandlers) hsettles
  · exact hsettles

variable (hexpr : ∀ c ∈ t.expressions, IsPlain o.namesItems c)
include hexpr

theorem sane_of_mem_markups {html : List Char} (h : html ∈ t.markups) :
    ∀ n ∈ (ofTrees (Tree.parse html)).nodes, n.2.Sane o := by
  intro n hn
  refine ⟨settles_of_mem_markups hplain h n hn, fun c hc => ?_⟩
  have hmem : n.2 ∈ t.nodes := List.mem_flatMap_of_mem h (List.mem_map_of_mem hn)
  exact (hexpr c (List.mem_append_right _ (List.mem_flatMap_of_mem hmem hc))).kept

theorem sane_ofTemplate (hloops : t.loops = []) : (Records.ofTemplate t).Sane o where
  conditions name g hg c hc := by
    have hmem := (mem_of_group?_ofTemplate hloops hg).1
    exact (hexpr _ (List.mem_append_left _
      (List.mem_flatMap_of_mem hmem (List.mem_map_of_mem hc)))).kept
  blocks name g hg b hb := by
    have hmem := (mem_of_group?_ofTemplate hloops hg).1
    have hsane := sane_of_mem_markups hplain hexpr
      (List.mem_cons_of_mem _ (List.mem_flatMap_of_mem hmem (List.mem_map_of_mem hb)))
    unfold raw
    split
    exacts [(altered_mapElements _ _).sane Element.harmless_completeHandlers hsane, hsane]

end

namespace Page

/-- The page of a template of which nothing has been shown yet. -/
def fresh (t : Template) (o : ViewOptions) (load : Loader) : Page :=
  .ofTemplate t (.parse t.html.toList) o load

/-- The state after some snapshots, with nothing before them. -/
def stateAfter (snapshots : List (List (String × Value))) : Bindings :=
  Bindings.merge [] snapshots.flatten

section

variable {load : Loader} {first union : List (String × Value)}
  {calls : List Call} {w : NodeData → Nat}

theorem stateAfter_cons {seen : List (List (String × Value))} :
    stateAfter (first :: seen) = (Bindings.merge [] first).merge seen.flatten := by
  rw [stateAfter, List.flatten_cons, Bindings.merge_append]

theorem performAll_same_of_showable (h : Showable o.completing (.ofTemplate t) w
      (ofTrees (Tree.parse t.html.toList)))
    (hclean : ∀ seen, seen <+: calls.map Call.snapshot →
      Clean o.completing ⟨stateAfter (first :: seen), []⟩ (.ofTemplate t)
        (ofTrees (Tree.parse t.html.toList)))
    (hunion : Bindings.merge [] union = stateAfter (first :: calls.map Call.snapshot)) :
    Tree.Same ((fresh t o load).performAll (.render first :: calls)).tree
      ((fresh t o load).render union).2.tree := by
  obtain ⟨markup, hm, hkeep, hshow⟩ :=
    displays_render (p := fresh t o load) h rfl rfl rfl rfl
  rw [show (fresh t o load).state = [] from rfl] at hshow
  obtain ⟨hfirst, hstate⟩ := hshow first (by
    simpa [stateAfter] using hkeep _ (hclean [] List.nil_prefix))
  obtain ⟨hall, hstate''⟩ := hshow union (by
    rw [hunion]
    exact hkeep _ (hclean _ (List.prefix_refl _)))
  rw [performAll_cons, perform_render]
  generalize ((fresh t o load).render first).2 = p at hfirst hstate ⊢
  generalize ((fresh t o load).render union).2 = q at hall hstate'' ⊢
  have hcalls : ∀ seen, seen <+: calls.map Call.snapshot →
      Clean o.completing ⟨p.state.merge seen.flatten, []⟩ (.ofTemplate t) markup := by
    intro seen hseen
    rw [hstate, ← stateAfter_cons]
    exact hkeep _ (hclean seen hseen)
  obtain ⟨hlast, hstate'⟩ := hfirst.performAll hm hcalls
  refine hlast.same hm hall ?_
  rw [hstate', hstate, ← stateAfter_cons, hstate'']
  exact hunion.symm

end

/-- A page that is shown snapshots one after the other has the tree of a new page that is shown all
of them at once, if each state on the way is clean.  A source of less than the given length has too few
groups for the handle of a node that is gone to come round to another one. -/
theorem performAll_same {co : CompileOptions} {source : List Char} {compiled : Compiled}
    (hcompile : compile co source = .ok compiled) (hno : NoComment source)
    (hloops : compiled.template.loops = []) (hlength : source.length + 3 < 3 * generations)
    {o : ViewOptions} {load : Loader}
    (hplain : ∀ e, .element e ∈ compiled.template.nodes → e.Plain)
    (hexpr : ∀ c ∈ compiled.template.expressions, IsPlain o.namesItems c)
    {first union : List (String × Value)} {calls : List Call}
    (hclean : ∀ seen, seen <+: calls.map Call.snapshot →
      Clean o.completing ⟨stateAfter (first :: seen), []⟩ (.ofTemplate compiled.template)
        (ofTrees (Tree.parse compiled.template.html.toList)))
    (hunion : Bindings.merge [] union = stateAfter (first :: calls.map Call.snapshot)) :
    Tree.Same ((fresh compiled.template o load).performAll (.render first :: calls)).tree
      ((fresh compiled.template o load).render union).2.tree := by
  obtain ⟨w, hweighs, hsize, hweight⟩ := weighs_of_compile hcompile hno hloops
  generalize compiled.template = t at *
  have hplainly : ∀ c ∈ t.expressions, IsPlain o.completing.namesItems c := hexpr
  refine performAll_same_of_showable (w := w) ⟨hweighs, loops_ofTemplate hloops,
    sane_ofTemplate hplain hplainly hloops, sane_of_mem_markups hplain hplainly List.mem_cons_self,
    hsize, ?_⟩ hclean hunion
  omega

/-! ## A group around a text -/

/-- A text that is shown if there is something else to show. -/
def guardedBlock : Block where
  kind := .first
  condition := some "a"
  content := "<b pado-text=\"\x7bx\x7d\"></b>"

/-- A template with a group of one block. -/
def guarded : Template where
  html := "<!-- if:page_if_0 -->"
  conditions := [⟨"page_if_0", [guardedBlock]⟩]
  loops := []

/-- The element in the block. -/
def guardedElement : Element where
  tag := "b"
  attributes := [("pado-text", "\x7bx\x7d")]

theorem compile_guarded : compile {} "\x7b@if(a)\x7d<b>\x7bx\x7d</b>\x7b/if\x7d".toList =
    .ok ⟨guarded, []⟩ :=
  rfl

theorem noComment_guarded : NoComment "\x7b@if(a)\x7d<b>\x7bx\x7d</b>\x7b/if\x7d".toList := by
  unfold NoComment
  decide +kernel

theorem parse_guarded : Tree.parse guarded.html.toList = [.leaf (.comment " if:page_if_0 ")] :=
  rfl

theorem parse_guardedBlock :
    Tree.parse guardedBlock.content.toList = [.leaf (.element guardedElement)] :=
  rfl

theorem nodes_guarded : guarded.nodes = [.comment " if:page_if_0 ", .element guardedElement] := by
  have hm : guarded.markups = [guarded.html.toList, guardedBlock.content.toList] := rfl
  rw [Template.nodes, hm, List.flatMap_cons, List.flatMap_singleton, parse_guarded,
    parse_guardedBlock]
  simp [Tree.leaf, Tree.dataAll_node, Tree.dataAll_nil]

theorem plain_guarded (e : Element) (h : .element e ∈ guarded.nodes) : e.Plain := by
  rw [nodes_guarded] at h
  obtain rfl : e = guardedElement := by simpa using h
  unfold Element.Plain
  decide +kernel

theorem isName_a : IsName "a" := ⟨0, 1, rfl⟩

theorem isName_x : IsName "x" := ⟨0, 1, rfl⟩

theorem isPlain_guarded : ∀ c ∈ guarded.expressions, IsPlain false c := by
  have hexpr : guarded.expressions = ["a".toList, "x".toList] := by
    rw [Template.expressions, nodes_guarded]
    decide +kernel
  have hname : ∀ x, IsName x → '\\' ∉ x.toList → isTracked x.toList = true → IsPlain false x.toList :=
    fun x hx hs ht => ⟨hs, fun y hy => by
      rw [normalize_word hx.identRest] at hy
      obtain ⟨span, hp⟩ := hx.parseExpr_eq
      rw [textLookups, hp] at hy
      obtain rfl := List.mem_singleton.mp hy
      exact ht, nofun⟩
  rw [hexpr]
  simp only [List.mem_cons, List.not_mem_nil, or_false, forall_eq_or_imp, forall_eq]
  exact ⟨hname _ isName_a (by decide) (by decide +kernel), hname _ isName_x (by decide) (by decide +kernel)⟩

theorem groupAt?_guarded : (Records.ofTemplate guarded).groupAt? (.comment " if:page_if_0 ") =
    some ⟨"page_if_0", [guardedBlock]⟩ := by
  decide +kernel

theorem liveText?_guardedElement :
    (NodeData.element guardedElement).liveText? = some "\x7bx\x7d" := by
  decide +kernel

section

variable {state : Bindings} {v : String}

theorem groupMarkup?_guarded (ho : o.namesItems = false) (ha : state.lookup "a" = some (.string "y")) :
    groupMarkup? o ⟨state, []⟩ ⟨"page_if_0", [guardedBlock]⟩ =
      some guardedBlock.content.toList := by
  have hvalue : valueOf false ⟨state, []⟩ "a".toList = .string "y" := by
    rw [isName_a.valueOf_eq, Scope.find?, List.findSome?_cons, ha]
    rfl
  have hblock : chosenBlock o ⟨state, []⟩ ⟨"page_if_0", [guardedBlock]⟩ =
      some guardedBlock := by
    refine List.find?_cons_of_pos ?_
    show (valueOf o.namesItems ⟨state, []⟩ "a".toList).isTruthy = true
    rw [ho, hvalue]
    rfl
  have hne : trim guardedBlock.content.toList ≠ [] := by decide +kernel
  unfold groupMarkup?
  rw [hblock]
  exact if_neg hne

theorem renderedText_guarded (ho : o.namesItems = false) (hx : state.lookup "x" = some (.string v)) :
    renderedText o ⟨state, []⟩ "\x7bx\x7d" = v.toList := by
  refine (isName_x.text_render _).trans ?_
  rw [ho, shownValue, isName_x.valueOf_eq, Scope.find?, List.findSome?_cons, hx]
  rfl

theorem clean_guarded (ho : o.namesItems = false) (ha : state.lookup "a" = some (.string "y"))
    (hx : state.lookup "x" = some (.string v)) (hv : '<' ∉ v.toList) :
    Clean o ⟨state, []⟩ (.ofTemplate guarded)
      (ofTrees (Tree.parse guarded.html.toList)) := by
  have hinner : Clean o ⟨state, []⟩ (.ofTemplate guarded)
      (ofTrees (Tree.parse guardedBlock.content.toList)) := by
    rw [parse_guardedBlock, Tree.leaf, ofTrees, ofTrees]
    refine .node ?_ ?_ ?_ (by rintro g html ⟨⟩) .nil
    · rintro e ⟨⟩ t source hb
      cases hb
    · intro text h
      obtain rfl := Option.some.inj (liveText?_guardedElement.symm.trans h)
      rwa [renderedText_guarded ho hx]
    · intro h
      cases liveText?_guardedElement.symm.trans h
  rw [parse_guarded, Tree.leaf, ofTrees, ofTrees]
  refine .node (by rintro e ⟨⟩) (by rintro text ⟨⟩) (fun _ => .nil) ?_ .nil
  intro g html hg hmk
  obtain rfl := Option.some.inj (groupAt?_guarded.symm.trans hg)
  obtain rfl := Option.some.inj ((groupMarkup?_guarded ho ha).symm.trans hmk)
  exact hinner

end

theorem performAll_same_at_guarded :
    Tree.Same
      ((fresh guarded {} .nothing).performAll
        [.render [("a", .string "y"), ("x", .string "u")], .update [("x", .string "v")]]).tree
      ((fresh guarded {} .nothing).render [("a", .string "y"), ("x", .string "v")]).2.tree := by
  refine performAll_same compile_guarded noComment_guarded rfl (by decide) plain_guarded
    isPlain_guarded (fun seen hseen => ?_) rfl
  rcases List.prefix_cons_iff.mp hseen with rfl | ⟨rest, rfl, hrest⟩
  · exact clean_guarded (v := "u") rfl rfl rfl (by decide)
  · obtain rfl := List.prefix_nil.mp hrest
    exact clean_guarded (v := "v") rfl rfl rfl (by decide)

end Page

end LiveMarkup
