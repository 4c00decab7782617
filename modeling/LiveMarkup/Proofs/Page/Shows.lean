import Mathlib.Data.List.TakeWhile
import LiveMarkup.Proofs.Page.Fits
import LiveMarkup.Proofs.Page.Refinement

/-!
# Forests that show a state

A forest shows a state of some markup, apart from what updates concern, if its markers own the
content of the blocks chosen in the state, its texts are the ones of the state, and its elements fit
(`Forest.Shows`).  Of what showed an old state all that the names of a snapshot do not concern shows
the new one too (`Forest.Shows.after`).  Two forests that show the same state are the same but for
the order of attributes (`Forest.Shows.same`).
-/

namespace LiveMarkup

open Text

/-- The text that a node is bound to, if it has an expression. -/
def NodeData.liveText? (data : NodeData) : Option String :=
  data.boundText?.filter fun text => Update.all.meetsText text.toList

/-- The expressions that a node is bound to. -/
def NodeData.expressions (data : NodeData) : List (List Char) :=
  (data.boundText?.toList.flatMap fun text => Interpolation.expressions text.toList) ++
    (data.element?.toList.flatMap fun e => e.bindings.map fun b => b.2.toList)

/-- A node shows a state like an element that fits, or is the node of the markup. -/
def NodeData.Fits (o : ViewOptions) (scope : Scope) (u : Update) : NodeData → NodeData → Prop
  | .element e, data => ∃ e', data = .element e' ∧ e.Fits o scope u e'
  | data, data' => data' = data

/-- Nodes differ in the order of their attributes at most. -/
def NodeData.Same : NodeData → NodeData → Prop
  | .element e, data => ∃ e', data = .element e' ∧ e.Like e'
  | data, data' => data = data'

/-- Trees differ in the order of attributes at most. -/
inductive Tree.Same : Tree → Tree → Prop
  | node {data data' : NodeData} {ts ts' : List Tree} (hdata : data.Same data')
      (hchildren : List.Forall₂ Tree.Same ts ts') : Tree.Same (.node data ts) (.node data' ts')

namespace View

variable (o : ViewOptions) (scope : Scope)

/-- The markup that a group shows. -/
def groupMarkup? (g : ConditionGroup) : Option (List Char) :=
  match chosenBlock o scope g with
  | none => none
  | some b => if trim b.content.toList = [] then none else some b.content.toList

/-- What a text with expressions is shown as. -/
def renderedText (text : String) : List Char :=
  Interpolation.render (shownValue o.namesItems scope) text.toList

theorem groupContent_eq (make : List Char → Forest Unit) (g : ConditionGroup) :
    groupContent o scope make g = ((groupMarkup? o scope g).map make).getD .nil := by
  unfold groupContent groupMarkup?
  rcases chosenBlock o scope g with _ | b
  · rfl
  · simp only
    split <;> rfl

variable {o scope}

theorem mem_of_groupMarkup? {g : ConditionGroup} {html : List Char}
    (h : groupMarkup? o scope g = some html) : ∃ b ∈ g.blocks, b.content.toList = html := by
  unfold groupMarkup? at h
  rcases hb : chosenBlock o scope g with _ | b <;> rw [hb] at h <;> simp only at h
  · cases h
  · split at h
    · cases h
    · exact ⟨b, List.mem_of_find?_eq_some hb, Option.some.inj h⟩

end View

theorem Update.meetsText_all_of_meetsText {u : Update} {text : List Char}
    (h : u.meetsText text = true) : Update.all.meetsText text = true := by
  unfold meetsText at h ⊢
  rw [List.any_eq_true] at h ⊢
  exact h.imp fun c hc => ⟨hc.1, rfl⟩

@[simp] theorem Update.meets_nil (vars : List String) : (Update.keys []).meets vars = false := by
  simp [meets]

@[simp] theorem Update.meetsText_nil (text : List Char) :
    (Update.keys []).meetsText text = false := by
  simp [meetsText]

namespace Forest

open View

section

variable (o : ViewOptions) (scope : Scope) (r : Records)

/-- A forest shows a state of markup, apart from the groups, texts and attributes that three updates
concern. -/
def Shows (uc ut ua : Update) : Forest Unit → Forest Unit → Prop
  | .nil, markup => markup = .nil
  | .node _ data' cs' ow' rest', markup => ∃ data cs rest, markup = .node () data cs .nil rest ∧
      data.Fits o scope ua data' ∧
      (match data.liveText? with
      | some text => ut.meetsText text.toList = true ∨
          cs' = .ofTrees (Tree.parse (renderedText o scope text))
      | none => Shows uc ut ua cs' cs) ∧
      (match r.groupAt? data with
      | some g => uc.meets g.vars = true ∨
          match groupMarkup? o scope g with
          | some html => Shows uc ut ua ow' (raw o html)
          | none => ow' = .nil
      | none => ow' = .nil) ∧
      Shows uc ut ua rest' rest

/-- In a state, no text that is shown has markup in it, and no binding that is shown is undefined.
Below an element that is bound to a text nothing else is shown. -/
inductive Clean : Forest Unit → Prop
  | nil : Clean .nil
  | node {data : NodeData} {cs rest : Forest Unit}
      (hdefined : ∀ e, data = .element e → e.Defined o scope)
      (htext : ∀ text, data.liveText? = some text → '<' ∉ renderedText o scope text)
      (hchildren : data.liveText? = none → Clean cs)
      (hgroup : ∀ g html, r.groupAt? data = some g → groupMarkup? o scope g = some html →
        Clean (.ofTrees (Tree.parse html)))
      (hrest : Clean rest) : Clean (.node () data cs .nil rest)

end

end Forest

/-- An expression has the same value in scopes that differ only in names that it does not mention. -/
def Kept (o : ViewOptions) (c : List Char) : Prop :=
  ∀ names s s', AgreeOff names s s' → (Update.keys names).meets (expressionVars c) = false →
    valueOf o.namesItems s c = valueOf o.namesItems s' c

/-- No attribute of a node stands twice or is bound to a binding. -/
structure NodeData.Settles (data : NodeData) : Prop where
  distinct : ∀ e, data = .element e → e.Distinct
  plain : ∀ e, data = .element e → e.Plain

/-- No attribute of a node stands twice or is bound to a binding, and its expressions are kept. -/
structure NodeData.Sane (o : ViewOptions) (data : NodeData) : Prop extends NodeData.Settles data where
  kept : ∀ c ∈ data.expressions, Kept o c

/-- All nodes of the blocks of a view are sane, and its conditions are kept. -/
structure Records.Sane (o : ViewOptions) (r : Records) : Prop where
  conditions : ∀ name g, r.group? name = some g → ∀ c ∈ g.conditions, Kept o c.toList
  blocks : ∀ name g, r.group? name = some g → ∀ b ∈ g.blocks,
    ∀ n ∈ (View.raw o b.content.toList).nodes, n.2.Sane o

variable {o : ViewOptions} {scope scope' : Scope} {r : Records} {u uc ut ua : Update}
  {data data' : NodeData} {names : List String}
  {f g markup : Forest Unit}

theorem Records.group?_of_groupAt? {g : ConditionGroup} (h : r.groupAt? data = some g) :
    ∃ name, r.group? name = some g := by
  unfold Records.groupAt? at h
  split at h
  · split at h
    · exact ⟨_, h⟩
    · cases h
  · cases h

namespace NodeData.Fits

theorem groupAt?_eq (h : data.Fits o scope u data') : r.groupAt? data' = r.groupAt? data := by
  rcases data with _ | _ | e | s | s | s
  case element =>
    obtain ⟨e', rfl, -⟩ := h
    rfl
  all_goals exact congrArg _ h

theorem boundText?_eq (h : data.Fits o scope u data') (hs : data.Sane o) :
    data'.boundText? = data.boundText? := by
  rcases data with _ | _ | e | s | s | s
  case element =>
    obtain ⟨e', rfl, he⟩ := h
    exact he.boundText (hs.distinct e rfl) (hs.plain e rfl)
  all_goals exact congrArg _ h

theorem weaken (h : data.Fits o scope (.keys []) data') : data.Fits o scope u data' := by
  rcases data with _ | _ | e | s | s | s
  case element =>
    obtain ⟨e', rfl, vs, hnd, hkeys, hlike, hvals⟩ := h
    exact ⟨e', rfl, vs, hnd, hkeys, hlike, fun t source hb =>
      .inr ((hvals t source hb).resolve_left (by simp))⟩
  all_goals exact h

theorem raw (data : NodeData) : data.Fits o scope .all data := by
  rcases data with _ | _ | e | s | s | s
  case element => exact ⟨e, rfl, Element.Fits.raw o scope e⟩
  all_goals exact rfl

theorem same (h : data.Fits o scope (.keys []) data') {data'' : NodeData}
    (h' : data.Fits o scope (.keys []) data'') (hs : data.Sane o) : data'.Same data'' := by
  rcases data with _ | _ | e | s | s | s
  case element =>
    obtain ⟨e', rfl, he⟩ := h
    obtain ⟨e'', rfl, he'⟩ := h'
    exact ⟨e'', rfl, he.like he' (hs.distinct e rfl)⟩
  all_goals
    obtain rfl := h
    obtain rfl := h'
    exact rfl

end NodeData.Fits

namespace Forest

open View

theorem Shows.weaken (h : Shows o scope r (.keys []) (.keys []) (.keys []) f markup) :
    Shows o scope r uc ut ua f markup := by
  induction f generalizing markup with
  | nil => exact h
  | node id data' cs' ow' rest' ihc iho ihr =>
    obtain ⟨data, cs, rest, rfl, hdata, htext, hgroup, hrest⟩ := h
    refine ⟨data, cs, rest, rfl, hdata.weaken, ?_, ?_, ihr hrest⟩
    · rcases ht : data.liveText? with _ | text <;> rw [ht] at htext
      · exact ihc htext
      · exact .inr (htext.resolve_left (by simp))
    · rcases hg : r.groupAt? data with _ | g <;> rw [hg] at hgroup
      · exact hgroup
      · refine .inr ?_
        have hgroup := hgroup.resolve_left (by simp)
        rcases hmk : groupMarkup? o scope g with _ | html <;> rw [hmk] at hgroup
        · exact hgroup
        · exact iho hgroup

theorem settles_mapElement {change : Element → Element} (hch : Element.Harmless change)
    (h : data.Settles) : (data.mapElement change).Settles := by
  rcases data with _ | _ | e | s | s | s
  case element =>
    refine ⟨fun e' he => ?_, fun e' he => ?_⟩ <;> cases he
    exacts [hch.distinct (h.distinct e rfl), hch.plain (h.plain e rfl)]
  all_goals exact h

theorem sane_mapElement {change : Element → Element} (hch : Element.Harmless change)
    (h : data.Sane o) : (data.mapElement change).Sane o := by
  refine ⟨settles_mapElement hch h.toSettles, ?_⟩
  rcases data with _ | _ | e | s | s | s
  case element =>
    have hkept := h.kept
    simp only [NodeData.expressions, NodeData.boundText?, NodeData.element?, NodeData.mapElement,
      Option.bind_some, Option.toList_some, List.flatMap_singleton, hch.bindings, hch.text] at hkept ⊢
    exact hkept
  all_goals exact h.kept

/-- What holds of all nodes of a forest holds of all nodes of it with some elements changed. -/
theorem Altered.forall_nodes {change : Element → Element} {P : NodeData → Prop}
    (hP : ∀ data, P data → P (data.mapElement change)) (h : f.Altered change g)
    (hf : ∀ n ∈ f.nodes, P n.2) : ∀ n ∈ g.nodes, P n.2 := by
  induction f generalizing g with
  | nil =>
    rw [show g = .nil from h]
    exact hf
  | node id data cs ow rest ihc iho ihr =>
    obtain ⟨data', cs', ow', rest', rfl, hdata, hc, ho, hr⟩ := h
    simp only [nodes, List.mem_cons, List.mem_append, or_imp, forall_and, forall_eq] at hf ⊢
    obtain ⟨h1, h2, h3, h4⟩ := hf
    refine ⟨?_, ihc hc h2, iho ho h3, ihr hr h4⟩
    rcases hdata with rfl | rfl
    exacts [h1, hP data h1]

theorem Altered.sane {change : Element → Element} (hch : Element.Harmless change)
    (h : f.Altered change g) (hf : ∀ n ∈ f.nodes, n.2.Sane o) : ∀ n ∈ g.nodes, n.2.Sane o :=
  h.forall_nodes (fun _ => sane_mapElement hch) hf

/-- Markup as it is shows any state, if everything is yet to be shown. -/
theorem Shows.raw (hf : f.Bare) : Shows o scope r .all .all .all f f := by
  induction f with
  | nil => rfl
  | node id data cs ow rest ihc iho ihr =>
    obtain ⟨hcs, rfl, hrest⟩ := hf
    refine ⟨data, cs, rest, rfl, NodeData.Fits.raw data, ?_, ?_, ihr hrest⟩
    · rcases ht : data.liveText? with _ | text
      · exact ihc hcs
      · exact .inl (Option.filter_eq_some_iff.mp ht).2
    · rcases r.groupAt? data with _ | g
      · rfl
      · exact .inl rfl

theorem outcome_eq_of_kept (it : Item) (hagree : AgreeOff names scope scope')
    (hc : ∀ c ∈ it.expressions, Kept o c) (h : it.meets (.keys names) = false) :
    it.outcome o scope = it.outcome o scope' :=
  Item.outcome_congr fun c hmem => hc c hmem names scope scope' hagree
    (Update.meets_eq_false_iff.mpr (Item.meets_eq_false_iff.mp h c hmem))

theorem renderedText_eq {text : String} (hagree : AgreeOff names scope scope')
    (hc : ∀ c ∈ Interpolation.expressions text.toList, Kept o c)
    (h : (Update.keys names).meetsText text.toList = false) :
    renderedText o scope text = renderedText o scope' text :=
  Outcome.text.inj (outcome_eq_of_kept (.text text.toList) hagree hc h)

theorem groupMarkup?_eq {g : ConditionGroup} (hagree : AgreeOff names scope scope')
    (hc : ∀ c ∈ g.conditions, Kept o c.toList)
    (h : (Update.keys names).meets g.vars = false) :
    groupMarkup? o scope g = groupMarkup? o scope' g := by
  have := outcome_eq_of_kept (.group g) hagree (List.forall_mem_map.mpr hc) h
  unfold groupMarkup?
  rw [Outcome.block.inj this]

/-- Of what showed an old state, all that the changed names do not concern shows the new one. -/
theorem Shows.after (hr : r.Sane o) (hagree : AgreeOff names scope scope')
    (h : Shows o scope r (.keys []) (.keys []) (.keys []) f markup)
    (hm : ∀ n ∈ markup.nodes, n.2.Sane o) :
    Shows o scope' r (.keys names) (.keys names) (.keys names) f markup := by
  induction f generalizing markup with
  | nil => exact h
  | node id data' cs' ow' rest' ihc iho ihr =>
    obtain ⟨data, cs, rest, rfl, hdata, htext, hgroup, hrest⟩ := h
    simp only [nodes, List.mem_cons, List.mem_append, List.not_mem_nil, false_or, or_imp,
      forall_and, forall_eq] at hm
    obtain ⟨hself, hcs, hm⟩ := hm
    have hkept := hself.kept
    simp only [NodeData.expressions, List.mem_append, or_imp, forall_and] at hkept
    refine ⟨data, cs, rest, rfl, ?_, ?_, ?_, ihr hrest hm⟩
    · rcases data with _ | _ | e | s | s | s
      case element =>
        obtain ⟨e', rfl, he⟩ := hdata
        refine ⟨e', rfl, he.after fun t source hb => hkept.2 _ ?_ names scope scope' hagree⟩
        simpa [NodeData.element?] using ⟨t, source, hb, rfl⟩
      all_goals exact hdata
    · rcases ht : data.liveText? with _ | text <;> rw [ht] at htext
      · exact ihc htext hcs
      · rcases hmeets : (Update.keys names).meetsText text.toList with _ | _
        · refine .inr ?_
          rw [← renderedText_eq hagree (fun c hc => hkept.1 c ?_) hmeets]
          · exact htext.resolve_left (by simp)
          · simpa [(Option.filter_eq_some_iff.mp ht).1] using hc
        · exact .inl hmeets
    · rcases hg : r.groupAt? data with _ | g <;> rw [hg] at hgroup
      · exact hgroup
      · obtain ⟨name, hname⟩ := Records.group?_of_groupAt? hg
        rcases hmeets : (Update.keys names).meets g.vars with _ | _
        · refine .inr ?_
          have hgroup := hgroup.resolve_left (by simp)
          rw [← groupMarkup?_eq hagree (hr.conditions name g hname) hmeets]
          rcases hmk : groupMarkup? o scope g with _ | html <;> rw [hmk] at hgroup
          · exact hgroup
          · obtain ⟨b, hb, rfl⟩ := mem_of_groupMarkup? hmk
            exact iho hgroup (hr.blocks name g hname b hb)
        · exact .inl hmeets

/-! ## Forests that show the same state -/

theorem same_self : ∀ data : NodeData, data.Same data
  | .element e => ⟨e, rfl, Element.Like.refl e⟩
  | .root | .fragment | .text _ | .comment _ | .doctype _ => rfl

theorem same_refl : ∀ f : Forest Unit, List.Forall₂ Tree.Same f.trees f.trees
  | .nil => .nil
  | .node _ data cs ow rest =>
    .cons (.node (same_self data) (same_refl cs)) (List.rel_append (same_refl ow) (same_refl rest))

/-- Forests that show the same state differ in the order of attributes at most. -/
theorem Shows.same (hr : r.Sane o)
    (hf : Shows o scope r (.keys []) (.keys []) (.keys []) f markup)
    (hg : Shows o scope r (.keys []) (.keys []) (.keys []) g markup)
    (hm : ∀ n ∈ markup.nodes, n.2.Sane o) : List.Forall₂ Tree.Same f.trees g.trees := by
  induction f generalizing g markup with
  | nil =>
    obtain rfl := hf
    rcases g with _ | ⟨⟨⟩, data', cs', ow', rest'⟩
    · exact .nil
    · obtain ⟨_, _, _, heq, _⟩ := hg
      cases heq
  | node id data' cs' ow' rest' ihc iho ihr =>
    obtain ⟨data, cs, rest, rfl, hdata, htext, hgroup, hrest⟩ := hf
    rcases g with _ | ⟨⟨⟩, data'', cs'', ow'', rest''⟩
    · cases hg
    · obtain ⟨_, _, _, heq, hdata', htext', hgroup', hrest'⟩ := hg
      cases heq
      simp only [nodes, List.mem_cons, List.mem_append, List.not_mem_nil, false_or, or_imp,
        forall_and, forall_eq] at hm
      obtain ⟨hself, hmcs, hmr⟩ := hm
      refine .cons (.node (hdata.same hdata' hself) ?_) (List.rel_append ?_ (ihr hrest hrest' hmr))
      · rcases ht : data.liveText? with _ | text <;> rw [ht] at htext htext'
        · exact ihc htext htext' hmcs
        · rw [htext.resolve_left (by simp), htext'.resolve_left (by simp)]
          exact same_refl _
      · rcases hg : r.groupAt? data with _ | g <;> rw [hg] at hgroup hgroup'
        · simp only at hgroup hgroup'
          rw [hgroup, hgroup']
          exact .nil
        · have hgroup := hgroup.resolve_left (by simp)
          have hgroup' := hgroup'.resolve_left (by simp)
          rcases hmk : groupMarkup? o scope g with _ | html <;> rw [hmk] at hgroup hgroup'
          · simp only at hgroup hgroup'
            rw [hgroup, hgroup']
            exact .nil
          · obtain ⟨name, hname⟩ := Records.group?_of_groupAt? hg
            obtain ⟨b, hb, rfl⟩ := mem_of_groupMarkup? hmk
            exact iho hgroup hgroup' (hr.blocks name g hname b hb)

end Forest

end LiveMarkup
