import LiveMarkup.Proofs.Page.Expanded
import LiveMarkup.Proofs.Page.Handlers
import LiveMarkup.Proofs.Page.Incremental
import LiveMarkup.Proofs.Template.Interpolated

/-!
# What a template means

What markup means in a state is said without documents (`View.Means`): an element has the attributes
that its bindings give it and the text that it is bound to, a marker is followed by what the markup of
its group means, and everything else is as it was parsed.  Of a template without loops the first view
of a state is exactly that (`View.render_means`).

The rules in it are those of the program: which block a group shows (`View.chosenBlock_eq_some_iff`),
what follows a node (`View.markupAt?_eq_some_iff`), how a text reads with the values of its tokens
(`Interpolation.render_plain`, `Interpolation.render_token`), and what a binding does to an element
(`Element.attribute?_applyBinding_flag` and the lemmas after it).
-/

namespace LiveMarkup

open Text Document Forest

/-- An element with the values of its bindings applied, except those that have none. -/
def Element.withBindings (o : ViewOptions) (scope : Scope) (e : Element) : Element :=
  e.bindings.foldl (fun e (target, source) =>
    match valueOf o.namesItems scope source.toList with
    | .undefined => e
    | v => e.applyBinding target v) e

namespace View

section

variable (o : ViewOptions) (scope : Scope) (r : Records)

/-- The markup that follows a node: that of the block that its group shows. -/
def markupAt? (data : NodeData) : Option (List Char) :=
  (r.groupAt? data).bind (groupMarkup? o scope)

/-- The trees that markup means in a state. -/
inductive Means : List Tree → List Tree → Prop
  | nil : Means [] []
  | node {data : NodeData} {ts ts' content rest rest' : List Tree}
      (htext : ∀ text, data.liveText? = some text → ts' = Tree.parse (renderedText o scope text))
      (hchildren : data.liveText? = none → Means ts ts')
      (hcontent : ∀ html, markupAt? o scope r data = some html → Means (Tree.parse html) content)
      (hnothing : markupAt? o scope r data = none → content = [])
      (hrest : Means rest rest') :
      Means (.node data ts :: rest)
        (.node (data.mapElement (Element.withBindings o scope)) ts' :: (content ++ rest'))

/-- A node stands in what markup means in a state. -/
inductive Reaches : List Tree → NodeData → Prop
  | self {data : NodeData} {ts rest : List Tree} : Reaches (.node data ts :: rest) data
  | child {data x : NodeData} {ts rest : List Tree} (hlive : data.liveText? = none)
      (h : Reaches ts x) : Reaches (.node data ts :: rest) x
  | content {data x : NodeData} {ts rest : List Tree} {html : List Char}
      (hmarkup : markupAt? o scope r data = some html) (h : Reaches (Tree.parse html) x) :
      Reaches (.node data ts :: rest) x
  | next {x : NodeData} {t : Tree} {rest : List Tree} (h : Reaches rest x) : Reaches (t :: rest) x

/-- No text that is shown has markup in it. -/
def TextsOnly (ts : List Tree) : Prop :=
  ∀ data, Reaches o scope r ts data → ∀ text, data.liveText? = some text →
    '<' ∉ renderedText o scope text

end

end View

/-! ## Rules -/

namespace Interpolation

variable {f : List Char → List Char} {a cs : List Char}

/-- What is no token stays as it is. -/
theorem render_plain {c : Char} (h : PlainHead c cs) : render f (c :: cs) = c :: render f cs := by
  rw [render, pieces_plain h, List.flatMap_cons, List.singleton_append, render]

/-- A token is replaced by what its inside is rendered as. -/
theorem render_token (h : IsToken a) (rest : List Char) :
    render f ('\x7b' :: (a ++ '\x7d' :: rest)) = f a ++ render f rest := by
  rw [render, pieces_token h, List.flatMap_cons, render]

end Interpolation

namespace Element

variable {e : Element} {t : String} {v : Value}

theorem attribute?_removeAttribute (h : e.Distinct) : (e.removeAttribute t).attribute? t = none := by
  rw [attribute?, removeAttribute, removeIn_eq h, List.lookup_eq_none_iff]
  exact fun x hx => bne_iff_ne.mpr (Ne.symm (of_decide_eq_true (List.mem_filter.mp hx).2))

/-- A flag is there or not, as the value is true or not. -/
theorem attribute?_applyBinding_flag (h : e.Distinct) (ht : t ∈ flagAttributes) :
    (e.applyBinding t v).attribute? t = if v.isTruthy then some "" else none := by
  have hset : ∀ e' : Element, (e'.setFlag t v.isTruthy).attribute? t = e'.attribute? t := fun _ => rfl
  rw [applyBinding, if_pos ht, apply_ite (fun e' : Element => e'.attribute? t), hset, ite_self,
    apply_ite (fun e' : Element => e'.attribute? t), attribute?_setAttribute_self,
    attribute?_removeAttribute h]

/-- The value of an element that has one is set, and its attributes stay. -/
theorem applyBinding_value_eq (h : e.kind.hasValue = true) :
    e.applyBinding "value" v = e.setValue v.text := by
  rw [applyBinding, if_neg (by decide), h, if_pos (by decide)]

/-- Any other attribute is set to the text of the value. -/
theorem applyBinding_eq_setAttribute (ht : t ∉ flagAttributes)
    (hvalue : t = "value" → e.kind.hasValue = false) : e.applyBinding t v = e.setAttribute t v.text := by
  rw [applyBinding, if_neg ht, if_neg]
  rintro h
  obtain ⟨rfl, hk⟩ := by simpa using h
  rw [hvalue rfl] at hk
  cases hk

end Element

/-- Whether a block is shown when its turn comes: it has no condition, or a true one. -/
def Block.Applies (o : ViewOptions) (scope : Scope) (b : Block) : Prop :=
  b.kind = .otherwise ∨ ∃ c, b.condition = some c ∧ (valueOf o.namesItems scope c.toList).isTruthy = true

namespace View

section

variable {o : ViewOptions} {scope : Scope} {r : Records} {g : ConditionGroup} {b : Block}

/-- A group shows its first block that applies. -/
theorem chosenBlock_eq_some_iff : chosenBlock o scope g = some b ↔ b.Applies o scope ∧
    ∃ before after, g.blocks = before ++ b :: after ∧ ∀ b' ∈ before, ¬ b'.Applies o scope := by
  rw [chosenBlock, List.find?_eq_some_iff_append]
  refine and_congr ?_ (exists_congr fun before => exists_congr fun after => and_congr_right fun _ =>
    forall₂_congr fun b' _ => ?_)
  · rcases b with ⟨_ | _ | _, _ | c, content⟩ <;> simp [Block.Applies]
  · rcases b' with ⟨_ | _ | _, _ | c, content⟩ <;> simp [Block.Applies]

/-- A marker is followed by the block that its group shows, unless that is blank, and any other node by
nothing. -/
theorem markupAt?_eq_some_iff {data : NodeData} {html : List Char} :
    markupAt? o scope r data = some html ↔ ∃ text name g b, data = .comment text ∧
      Marker.ofComment? text = some ⟨.condition, name⟩ ∧ r.group? name = some g ∧
      chosenBlock o scope g = some b ∧ trim b.content.toList ≠ [] ∧ b.content.toList = html := by
  constructor
  · intro h
    obtain ⟨g, hg, hmarkup⟩ := Option.bind_eq_some_iff.mp h
    unfold Records.groupAt? at hg
    split at hg <;> try cases hg
    rename_i text
    split at hg <;> try cases hg
    rename_i name hm
    unfold groupMarkup? at hmarkup
    split at hmarkup <;> try cases hmarkup
    rename_i b hb
    split at hmarkup <;> cases hmarkup
    exact ⟨text, name, g, b, rfl, hm, hg, hb, ‹_›, rfl⟩
  · rintro ⟨text, name, g, b, rfl, hm, hg, hb, hne, rfl⟩
    rw [markupAt?, Records.groupAt?, hm]
    simp only [hg, Option.bind_some, groupMarkup?, hb, if_neg hne]

end

/-! ## What is shown is what is meant -/

variable {o : ViewOptions} {scope : Scope} {r : Records} {w : NodeData → Nat} {data : NodeData}
  {ts ts' ts'' rest : List Tree}

/-- Markup means one thing at most. -/
theorem Means.unique (h : Means o scope r ts ts') (h' : Means o scope r ts ts'') : ts' = ts'' := by
  induction h generalizing ts'' with
  | nil =>
    cases h'
    rfl
  | @node data ts ts₁ content₁ rest rest₁ htext _ _ hnothing _ ihc iho ihr =>
    obtain _ | @⟨_, _, ts₂, content₂, _, rest₂, htext', hchildren', hcontent', hnothing', hrest'⟩ := h'
    have hts : ts₁ = ts₂ := by
      rcases hl : data.liveText? with _ | text
      · exact ihc hl (hchildren' hl)
      · rw [htext text hl, htext' text hl]
    have hcontent : content₁ = content₂ := by
      rcases hm : markupAt? o scope r data with _ | html
      · rw [hnothing hm, hnothing' hm]
      · exact iho html hm (hcontent' html hm)
    rw [hts, hcontent, ihr hrest']

theorem newAttributes_all (e : Element) : newAttributes o scope .all e = e.withBindings o scope := by
  unfold newAttributes Element.withBindings
  rw [Element.boundValues_eq, List.foldl_filterMap]
  refine List.foldl_ext _ _ _ fun e' b _ => ?_
  simp only [Update.meets, if_true]
  rcases valueOf o.namesItems scope b.2.toList <;> rfl

theorem newText_all : newText o scope .all data =
    data.liveText?.map fun text => ofTrees (Tree.parse (renderedText o scope text)) :=
  rfl

theorem TextsOnly.text {text : String} (h : TextsOnly o scope r (.node data ts :: rest))
    (hlive : data.liveText? = some text) : '<' ∉ renderedText o scope text :=
  h data .self text hlive

theorem TextsOnly.child (h : TextsOnly o scope r (.node data ts :: rest))
    (hlive : data.liveText? = none) : TextsOnly o scope r ts :=
  fun x hx => h x (.child hlive hx)

theorem TextsOnly.content {html : List Char} (h : TextsOnly o scope r (.node data ts :: rest))
    (hmarkup : markupAt? o scope r data = some html) : TextsOnly o scope r (Tree.parse html) :=
  fun x hx => h x (.content hmarkup hx)

theorem TextsOnly.next {t : Tree} (h : TextsOnly o scope r (t :: rest)) : TextsOnly o scope r rest :=
  fun x hx => h x (.next hx)

theorem content_eq (make : List Char → Forest Unit) :
    ((r.groupAt? data).map (groupContent o scope make)).getD .nil =
      ((markupAt? o scope r data).map make).getD .nil := by
  rw [markupAt?]
  rcases r.groupAt? data with _ | g
  · rfl
  · exact groupContent_eq o scope make g

/-- Markup with all nodes dealt with is what it means, if contents are made so. -/
theorem means_expanded {make : List Char → Forest Unit} {ts : List Tree}
    (hmake : ∀ n ∈ (ofTrees ts).nodes, ∀ html, markupAt? o scope r n.2 = some html →
      TextsOnly o scope r (Tree.parse html) → Means o scope r (Tree.parse html) (make html).trees)
    (h : TextsOnly o scope r ts) :
    Means o scope r ts ((ofTrees ts).expanded o scope r make).trees := by
  induction ts using ofTrees.induct with
  | case1 =>
    rw [ofTrees]
    exact .nil
  | case2 data ts rest ihc ihr =>
    rw [ofTrees] at hmake ⊢
    simp only [nodes, List.mem_cons, List.mem_append, List.not_mem_nil, false_or, or_imp,
      forall_and, forall_eq] at hmake
    obtain ⟨hself, hmc, hmr⟩ := hmake
    have hdata : data.mapElement (newAttributes o scope .all) =
        data.mapElement (Element.withBindings o scope) := by
      cases data <;> first | rfl | exact congrArg NodeData.element (newAttributes_all _)
    rw [expanded, trees, hdata, content_eq]
    refine .node (fun text hlive => ?_) (fun hlive => ?_) (fun html hmarkup => ?_) (fun hnone => ?_)
      (ihr hmr h.next)
    · rw [newText_all, hlive, Option.map_some, Option.map_some, Option.getD_some,
        mapElements_text (h.text hlive), trees_ofTrees]
    · rw [newText_all, hlive]
      exact ihc hmc (h.child hlive)
    · rw [hmarkup, Option.map_some, Option.getD_some]
      exact hself html hmarkup (h.content hmarkup)
    · rw [hnone]
      rfl

/-- With enough fuel, what is made of markup is what it means. -/
theorem means_made (hw : Weighs r w) (hs : r.Settles o) (ho : o.completeHandlers = false) :
    ∀ (N : Nat) (html : List Char), (ofTrees (Tree.parse html)).weigh w < N →
      TextsOnly o scope r (Tree.parse html) →
      Means o scope r (Tree.parse html) (made o scope r N html).trees := by
  intro N
  induction N with
  | zero => exact fun html hlt => absurd hlt (Nat.not_lt_zero _)
  | succ N ih =>
    intro html hlt h
    have hraw : raw o html = ofTrees (Tree.parse html) := by rw [raw, ho, if_neg Bool.false_ne_true]
    rw [made, shown_eq_expanded (bare_raw o html) (ready_made hw hs N _ (by
      rw [weigh_raw hw.elements]
      omega)), hraw]
    refine means_expanded (fun n hn html' hmarkup h' => ih html' ?_ h') h
    obtain ⟨g, hg, hmk⟩ := Option.bind_eq_some_iff.mp hmarkup
    obtain ⟨b, hb, rfl⟩ := mem_of_groupMarkup? hmk
    have := hw.blocks n.2 g hg b hb
    have := le_weigh (w := w) hn
    omega

/-- Of a template without loops, what a view that is shown in full shows first is exactly what the
skeleton means. -/
theorem render_means {co : CompileOptions} {source : List Char} {compiled : Compiled}
    (hcompile : compile co source = .ok compiled) (hno : NoComment source)
    (hloops : compiled.template.loops = [])
    (hplain : ∀ e, .element e ∈ compiled.template.nodes → e.Plain) (ho : o.completeHandlers = false)
    (htexts : TextsOnly o scope (.ofTemplate compiled.template)
      (Tree.parse compiled.template.html.toList)) :
    ∃ ts, ((View.ofTemplate compiled.template (.parse compiled.template.html.toList)).render
        o scope .all).2.document.subtree root = .node .root ts ∧
      ∀ ts', Means o scope (.ofTemplate compiled.template)
        (Tree.parse compiled.template.html.toList) ts' ↔ ts' = ts := by
  obtain ⟨w, hw, hsize, -⟩ := weighs_of_compile hcompile hno hloops
  generalize compiled.template = t at *
  obtain ⟨f, sp, hsp, hd, hst, hshape⟩ := parse_spec t.html.toList
  have hs : (Records.ofTemplate t).Settles o := settles_ofTemplate hplain hloops
  have hweigh : f.weigh w ≤ (Records.ofTemplate t).size := by
    rwa [← weigh_shape, hshape]
  have hbare : f.Bare := bare_shape.mp (hshape ▸ bare_ofTrees _)
  obtain ⟨g, -, -, hst', hshape'⟩ := render_bare (o := o)
    (v := .ofTemplate t (.parse t.html.toList)) scope hw hs (loops_ofTemplate hloops) rfl hd hst hbare hweigh
  have hmeans : Means o scope (.ofTemplate t) (Tree.parse t.html.toList) g.trees := by
    rw [← trees_shape, hshape', hshape]
    refine means_expanded (fun n hn html hmarkup h => means_made hw hs ho _ html ?_ h) htexts
    obtain ⟨gr, hg, hmk⟩ := Option.bind_eq_some_iff.mp hmarkup
    obtain ⟨b, hb, rfl⟩ := mem_of_groupMarkup? hmk
    have := hw.blocks n.2 gr hg b hb
    have := le_weigh (w := w) hn
    omega
  refine ⟨g.trees, ?_, fun ts' => ⟨fun h => h.unique hmeans, fun h => h ▸ hmeans⟩⟩
  rw [subtree_eq hst', hsp]

theorem textsOnly_guarded {state : Bindings} {v : String}
    (ho : o.namesItems = false) (ha : state.lookup "a" = some (.string "y"))
    (hx : state.lookup "x" = some (.string v)) (hv : '<' ∉ v.toList) : TextsOnly o ⟨state, []⟩ (.ofTemplate Page.guarded)
      (Tree.parse Page.guarded.html.toList) := by
  have hinner : TextsOnly o ⟨state, []⟩ (.ofTemplate Page.guarded)
      (Tree.parse Page.guardedBlock.content.toList) := by
    rw [Page.parse_guardedBlock, Tree.leaf]
    rintro x (_ | ⟨hlive, -⟩ | ⟨⟨⟩, -⟩ | ⟨⟨⟩⟩) text ht
    · obtain rfl := Option.some.inj (Page.liveText?_guardedElement.symm.trans ht)
      rwa [Page.renderedText_guarded ho hx]
    · cases Page.liveText?_guardedElement.symm.trans hlive
  have hmarkup : markupAt? o ⟨state, []⟩ (.ofTemplate Page.guarded)
      (.comment " if:page_if_0 ") = some Page.guardedBlock.content.toList := by
    rw [markupAt?, Page.groupAt?_guarded, Option.bind_some, Page.groupMarkup?_guarded ho ha]
  rw [Page.parse_guarded, Tree.leaf]
  rintro x (_ | ⟨-, ⟨⟩⟩ | ⟨h, hreach⟩ | ⟨⟨⟩⟩) text ht
  · cases ht
  · obtain rfl := Option.some.inj (hmarkup.symm.trans h)
    exact hinner x hreach text ht

/-- A state with a text to show. -/
def guardedScope : Scope :=
  ⟨[("a", .string "y"), ("x", .string "v")], []⟩

/-- The element of the group with its text. -/
def guardedText : Tree :=
  .node (.element Page.guardedElement) [.leaf (.text "v")]

theorem means_guardedBlock : Means {} guardedScope (.ofTemplate Page.guarded)
    (Tree.parse Page.guardedBlock.content.toList) [guardedText] := by
  have hbound : (NodeData.element Page.guardedElement).mapElement
      (Element.withBindings {} guardedScope) = .element Page.guardedElement := by decide +kernel
  have htext : ∀ text, (NodeData.element Page.guardedElement).liveText? = some text →
      [.leaf (.text "v")] = Tree.parse (renderedText {} guardedScope text) := fun text h => by
    obtain rfl := Option.some.inj (Page.liveText?_guardedElement.symm.trans h)
    have hv : renderedText {} guardedScope "\x7bx\x7d" = "v".toList :=
      Page.renderedText_guarded rfl rfl
    rw [hv]
    rfl
  have hchildren : (NodeData.element Page.guardedElement).liveText? = none →
      Means {} guardedScope (.ofTemplate Page.guarded) [] [.leaf (.text "v")] := fun h => by
    cases Page.liveText?_guardedElement.symm.trans h
  have h := Means.node htext hchildren (by rintro html ⟨⟩) (fun _ => rfl) .nil
  rw [hbound, List.append_nil] at h
  rw [Page.parse_guardedBlock]
  exact h

theorem means_guarded : Means {} guardedScope (.ofTemplate Page.guarded)
    (Tree.parse Page.guarded.html.toList) [.leaf (.comment " if:page_if_0 "), guardedText] := by
  have hgroup : groupMarkup? {} guardedScope ⟨"page_if_0", [Page.guardedBlock]⟩ =
      some Page.guardedBlock.content.toList := Page.groupMarkup?_guarded rfl rfl
  have hmarkup : markupAt? {} guardedScope (.ofTemplate Page.guarded) (.comment " if:page_if_0 ") =
      some Page.guardedBlock.content.toList := by
    rw [markupAt?, Page.groupAt?_guarded, Option.bind_some, hgroup]
  have htext : ∀ text, (NodeData.comment " if:page_if_0 ").liveText? = some text →
      [] = Tree.parse (renderedText {} guardedScope text) := fun text h => by cases h
  have hcontent : ∀ html, markupAt? {} guardedScope (.ofTemplate Page.guarded)
      (.comment " if:page_if_0 ") = some html →
        Means {} guardedScope (.ofTemplate Page.guarded) (Tree.parse html) [guardedText] :=
    fun html h => by
      obtain rfl := Option.some.inj (hmarkup.symm.trans h)
      exact means_guardedBlock
  have hnothing : markupAt? {} guardedScope (.ofTemplate Page.guarded)
      (.comment " if:page_if_0 ") = none → [guardedText] = [] := fun h => by
    cases hmarkup.symm.trans h
  rw [Page.parse_guarded]
  exact .node htext (fun _ => .nil) hcontent hnothing .nil

/-- The marker of the group, and after it the element with its text. -/
theorem render_means_guarded :
    TextsOnly {} guardedScope (.ofTemplate Page.guarded) (Tree.parse Page.guarded.html.toList) ∧
    ((View.ofTemplate Page.guarded (.parse Page.guarded.html.toList)).render {}
      guardedScope .all).2.document.subtree root =
        .node .root [.leaf (.comment " if:page_if_0 "), guardedText] ∧
    ∀ ts', Means {} guardedScope (.ofTemplate Page.guarded) (Tree.parse Page.guarded.html.toList) ts' ↔
      ts' = [.leaf (.comment " if:page_if_0 "), guardedText] := by
  have htexts : TextsOnly {} guardedScope (.ofTemplate Page.guarded)
      (Tree.parse Page.guarded.html.toList) :=
    textsOnly_guarded (v := "v") rfl rfl rfl (by decide)
  obtain ⟨ts, htree, hmeans⟩ :=
    render_means Page.compile_guarded Page.noComment_guarded rfl Page.plain_guarded rfl htexts
  dsimp only at htree hmeans
  have hts : _ = ts := (hmeans _).mp means_guarded
  exact ⟨htexts, hts ▸ htree, hts ▸ hmeans⟩

end View

end LiveMarkup
