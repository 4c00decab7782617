import LiveMarkup.Proofs.Template.Anchors
import LiveMarkup.Proofs.Template.Recovery
import LiveMarkup.Proofs.Template.Whole

/-!
# Every record keeps its marker

That no marker stands twice or without a record is so of all sources without comments
(`compile_occurrences_le`).  The marker of a directive can be lost only where it stands inside a piece
of markup: in a group of braces, in a tag.  If the text before each directive of a template is whole
markup (`Outline.IsParted`), and the source has no comments, the marker of every record stands in the
compiled template exactly once (`compile_keeps_markers`).
-/

namespace LiveMarkup

open Text

variable {gs gs' : List ConditionGroup} {ls ls' : List LoopDefinition} {m : Marker} {names : Names}
  {gap p cs : List Char}

/-! ## Trees without directives inside markup -/

mutual

/-- The text before each directive is whole markup. -/
def Outline.IsParted : Outline → Prop
  | .text _ => True
  | .directive cs d rest => Whole cs ∧ d.IsParted ∧ rest.IsParted

/-- In the blocks of a directive, the text before each directive is whole markup. -/
def Directive.IsParted : Directive → Prop
  | .group _ body more => body.IsParted ∧ more.IsParted
  | .loop _ _ body => body.IsParted

/-- In the blocks of branches, the text before each directive is whole markup. -/
def Branches.IsParted : Branches → Prop
  | .done => True
  | .otherwise body => body.IsParted
  | .elseIf _ body more => body.IsParted ∧ more.IsParted

end

/-- The markers in the text of a template, those in blocks aside. -/
def Outline.outer (names : Names) : Outline → List Marker
  | .text _ => []
  | .directive _ d rest => ⟨d.kind, (names.next d.kind).1⟩ :: rest.outer (d.namesAfter names)

theorem parted_skeleton : ∀ (o : Outline) {names : Names}, o.IsParted →
    (∀ c ∈ names.seed.toList, isMark c = true) → Parted (o.skeleton names) (o.outer names)
  | .text cs, names, _, _ => by
    rw [Outline.skeleton, Outline.outer]
    exact .text cs
  | .directive cs d rest, names, h, hseed => by
    obtain ⟨hcs, -, hrest⟩ := h
    rw [Outline.skeleton, Outline.outer]
    refine .marker hcs ?_ (parted_skeleton rest hrest ?_)
    · show ∀ c ∈ (names.next d.kind).1.toList, isMark c = true
      rw [Names.next_fst]
      exact isMark_nameOf hseed _ _
    · rwa [(numbers_directive d names).seed]

theorem isInfix_blockContent {o : Outline} (ho : o.IsParted)
    (hseed : ∀ c ∈ names.seed.toList, isMark c = true) (hm : m ∈ o.outer names) :
    m.markup <:+: (blockContent (o.skeleton names)).toList := by
  rw [blockContent, String.toList_ofList]
  exact (parted_skeleton o ho hseed).trim.isInfix_bindMarkup m hm

/-! ## Markers in records -/

/-- A marker stands in the content of a record. -/
def InContent (m : Marker) (gs : List ConditionGroup) (ls : List LoopDefinition) : Prop :=
  (∃ g ∈ gs, ∃ b ∈ g.blocks, m.markup <:+: b.content.toList) ∨ ∃ l ∈ ls, m.markup <:+: l.content.toList

theorem InContent.mono (h : InContent m gs ls) (hg : gs ⊆ gs') (hl : ls ⊆ ls') : InContent m gs' ls' := by
  rcases h with ⟨g, hmem, h⟩ | ⟨l, hmem, h⟩
  · exact .inl ⟨g, hg hmem, h⟩
  · exact .inr ⟨l, hl hmem, h⟩

mutual

theorem opened_outline : ∀ (o : Outline) {names : Names}, o.IsParted →
    (∀ c ∈ names.seed.toList, isMark c = true) → ∀ m ∈ o.opened names,
      m ∈ o.outer names ∨ InContent m (o.groups names) (o.loops names)
  | .text _, names, _, _, m, hm => by
    rw [Outline.opened] at hm
    cases hm
  | .directive cs d rest, names, h, hseed, m, hm => by
    obtain ⟨-, hd, hrest⟩ := h
    rw [Outline.opened] at hm
    rw [Outline.outer, Outline.groups, Outline.loops]
    rcases List.mem_append.mp hm with hm | hm
    · rcases opened_directive d hd hseed m hm with rfl | h
      · exact .inl List.mem_cons_self
      · exact .inr (h.mono (List.subset_append_left _ _) (List.subset_append_left _ _))
    · have hseed' : ∀ c ∈ (d.namesAfter names).seed.toList, isMark c = true := by
        rwa [(numbers_directive d names).seed]
      rcases opened_outline rest hrest hseed' m hm with hm | h
      · exact .inl (List.mem_cons_of_mem _ hm)
      · exact .inr (h.mono (List.subset_append_right _ _) (List.subset_append_right _ _))

theorem opened_directive : ∀ (d : Directive) {names : Names}, d.IsParted →
    (∀ c ∈ names.seed.toList, isMark c = true) → ∀ m ∈ d.opened names,
      m = ⟨d.kind, (names.next d.kind).1⟩ ∨ InContent m (d.groups names) (d.loops names)
  | .group test body more, names, h, hseed, m, hm => by
    obtain ⟨hbody, hmore⟩ := h
    have hseed' : ∀ c ∈ (names.next .condition).2.seed.toList, isMark c = true := hseed
    rw [Directive.opened] at hm
    rw [Directive.groups, Directive.loops]
    rcases List.mem_cons.mp hm with rfl | hm
    · exact .inl rfl
    refine .inr ?_
    rcases List.mem_append.mp hm with hm | hm
    · rcases opened_outline body hbody hseed' m hm with hm | h
      · refine .inl ⟨_, List.mem_append_right _ List.mem_cons_self, _, List.mem_cons_self, ?_⟩
        exact isInfix_blockContent hbody hseed' hm
      · refine h.mono ?_ (List.subset_append_left _ _)
        exact List.Subset.trans (List.subset_append_left _ _) (List.subset_append_left _ _)
    · have hseed'' : ∀ c ∈ (body.namesAfter (names.next .condition).2).seed.toList, isMark c = true := by
        rwa [(numbers_outline body _).seed]
      rcases opened_branches more hmore hseed'' m hm with ⟨b, hb, hm⟩ | h
      · exact .inl ⟨_, List.mem_append_right _ List.mem_cons_self, b, List.mem_cons_of_mem _ hb, hm⟩
      · refine h.mono ?_ (List.subset_append_right _ _)
        exact List.Subset.trans (List.subset_append_right _ _) (List.subset_append_left _ _)
  | .loop array item body, names, h, hseed, m, hm => by
    have hseed' : ∀ c ∈ (names.next .loop).2.seed.toList, isMark c = true := hseed
    rw [Directive.opened] at hm
    rw [Directive.groups, Directive.loops]
    rcases List.mem_cons.mp hm with rfl | hm
    · exact .inl rfl
    refine .inr ?_
    rcases opened_outline body h hseed' m hm with hm | h'
    · refine .inr ⟨_, List.mem_append_right _ List.mem_cons_self, ?_⟩
      exact isInfix_blockContent h hseed' hm
    · exact h'.mono (List.Subset.refl _) (List.subset_append_left _ _)

theorem opened_branches : ∀ (b : Branches) {names : Names}, b.IsParted →
    (∀ c ∈ names.seed.toList, isMark c = true) → ∀ m ∈ b.opened names,
      (∃ block ∈ b.blocks names, m.markup <:+: block.content.toList) ∨
        InContent m (b.groups names) (b.loops names)
  | .done, names, _, _, m, hm => by
    rw [Branches.opened] at hm
    cases hm
  | .otherwise body, names, h, hseed, m, hm => by
    rw [Branches.opened] at hm
    rw [Branches.blocks, Branches.groups, Branches.loops]
    rcases opened_outline body h hseed m hm with hm | h'
    · exact .inl ⟨_, List.mem_cons_self, isInfix_blockContent h hseed hm⟩
    · exact .inr h'
  | .elseIf test body more, names, h, hseed, m, hm => by
    obtain ⟨hbody, hmore⟩ := h
    rw [Branches.opened] at hm
    rw [Branches.blocks, Branches.groups, Branches.loops]
    rcases List.mem_append.mp hm with hm | hm
    · rcases opened_outline body hbody hseed m hm with hm | h
      · exact .inl ⟨_, List.mem_cons_self, isInfix_blockContent hbody hseed hm⟩
      · exact .inr (h.mono (List.subset_append_left _ _) (List.subset_append_left _ _))
    · have hseed' : ∀ c ∈ (body.namesAfter names).seed.toList, isMark c = true := by
        rwa [(numbers_outline body _).seed]
      rcases opened_branches more hmore hseed' m hm with ⟨b, hb, hm⟩ | h
      · exact .inl ⟨b, List.mem_cons_of_mem _ hb, hm⟩
      · exact .inr (h.mono (List.subset_append_right _ _) (List.subset_append_right _ _))

end

/-! ## Compiled templates -/

theorem occurrences_pos (h : p <:+: cs) : 0 < occurrences p cs := by
  obtain ⟨t, hpre, hsuf⟩ := List.infix_iff_prefix_suffix.mp h
  exact List.countP_pos_iff.mpr ⟨t, (List.mem_tails t cs).mpr hsuf, List.isPrefixOf_iff_prefix.mpr hpre⟩

theorem InContent.total_pos (h : InContent m gs ls) :
    0 < contentTotal (occurrences m.markup) gs ls := by
  rcases h with ⟨g, hg, b, hb, h⟩ | ⟨l, hl, h⟩
  · have hblock := List.le_sum_of_mem (List.mem_map_of_mem (f := fun b : Block => occurrences m.markup b.content.toList) hb)
    have hgroup := List.le_sum_of_mem (List.mem_map_of_mem (f := fun g : ConditionGroup =>
      (g.blocks.map fun b => occurrences m.markup b.content.toList).sum) hg)
    have := occurrences_pos h
    unfold contentTotal
    omega
  · have hloop := List.le_sum_of_mem (List.mem_map_of_mem (f := fun l : LoopDefinition => occurrences m.markup l.content.toList) hl)
    have := occurrences_pos h
    unfold contentTotal
    omega

/-- The template that is compiled from a tree, before its classes are scoped. -/
def Outline.template (names : Names) (tree : Outline) : Template where
  html := String.ofList (bindMarkup (tree.skeleton names))
  conditions := tree.groups names
  loops := tree.loops names

theorem compile_outline (o : CompileOptions) (hgap : ∀ c ∈ gap, isAsciiBlank c = true) {tree : Outline}
    (htree : tree.WellFormed) : ∃ warnings, compile o (tree.source gap) =
      .ok ⟨o.applyScope (tree.template (.ofPath o.path)), warnings⟩ := by
  rw [compile, compileFrom_outline o.path hgap htree]
  exact ⟨_, rfl⟩

theorem Outline.occurrences_template_pos {tree : Outline} (htree : tree.IsParted)
    (hseed : ∀ c ∈ names.seed.toList, isMark c = true) (hm : m ∈ (tree.template names).markers) :
    0 < (tree.template names).occurrences m := by
  have hopened : m ∈ tree.opened names := (records_outline tree names).mem_iff.mp hm
  unfold Template.occurrences Template.total
  rcases opened_outline tree htree hseed m hopened with hm | h
  · have hhtml : m.markup <:+: (tree.template names).html.toList := by
      rw [template, String.toList_ofList]
      exact (parted_skeleton tree htree hseed).isInfix_bindMarkup m hm
    exact Nat.add_pos_left (occurrences_pos hhtml) _
  · exact Nat.add_pos_right _ h.total_pos

/-- A template without comments, in which no directive stands inside a piece of markup, is compiled to
one in which the records have markers of their own, and in which the marker of each record stands
exactly once and no other marker at all. -/
theorem compile_keeps_markers (o : CompileOptions) (gap : List Char)
    (hgap : ∀ c ∈ gap, isAsciiBlank c = true) (tree : Outline) (htree : tree.WellFormed)
    (hparted : tree.IsParted) (hcomment : NoComment (tree.source gap))
    (hscope : o.path = none ∨ o.scopeClasses = false) :
    ∃ c, compile o (tree.source gap) = .ok c ∧ c.template.markers.Nodup ∧
      ∀ m : Marker, (∀ ch ∈ m.name.toList, isMark ch = true) →
        c.template.occurrences m = if m ∈ c.template.markers then 1 else 0 := by
  obtain ⟨warnings, hcompile⟩ := compile_outline o hgap htree
  refine ⟨_, hcompile, ?_⟩
  obtain ⟨hnodup, hle⟩ := compile_occurrences_le hcompile hcomment
  refine ⟨hnodup, fun m hname => ?_⟩
  have hle := hle m hname
  have hkeep : o.applyScope (tree.template (.ofPath o.path)) = tree.template (.ofPath o.path) := by
    unfold CompileOptions.applyScope
    split
    · rename_i path hpath
      rcases hscope with h | h
      · rw [hpath] at h
        cases h
      · rw [h]
        rfl
    · rfl
  split
  · rename_i hm
    rw [List.count_eq_one_of_mem hnodup hm] at hle
    refine le_antisymm hle ?_
    dsimp only at hm ⊢
    rw [hkeep] at hm ⊢
    exact Outline.occurrences_template_pos hparted (isMark_seed o.path) hm
  · rename_i hm
    rw [List.count_eq_zero_of_not_mem hm] at hle
    exact Nat.le_zero.mp hle

theorem compile_keeps_markers_nested :
    let item : Outline := .directive [] (.group "x".toList (.text "<li>{x}</li>".toList) .done) (.text [])
    let tree : Outline := .directive "<ul>".toList (.loop "xs".toList "x".toList item) (.text "</ul>".toList)
    tree.WellFormed ∧ tree.IsParted ∧ NoComment (tree.source [' ']) ∧
      tree.source [' '] = "<ul>{@loop xs as x}{@if (x)}<li>{x}</li>{/if}{/loop}</ul>".toList ∧
      ∃ c, compile {} (tree.source [' ']) = .ok c ∧ c.template.markers.Nodup ∧
        ∀ m : Marker, (∀ ch ∈ m.name.toList, isMark ch = true) →
          c.template.occurrences m = if m ∈ c.template.markers then 1 else 0 := by
  intro item tree
  have hbare : ∀ cs ∈ ["<ul>".toList, [], "<li>{x}</li>".toList, "</ul>".toList], IsBare cs := by
    unfold IsBare
    decide
  have hx : IsTest "x".toList :=
    ⟨by decide, by decide, by simp, .char (by decide) (by decide) .nil⟩
  have hxs : IsArray "xs".toList := ⟨by decide, by decide, by simp⟩
  have htree : tree.WellFormed :=
    ⟨hbare _ (by decide),
      ⟨hxs, by decide, hbare _ (by decide), ⟨hx, hbare _ (by decide), trivial⟩, hbare _ (by decide)⟩,
      hbare _ (by decide)⟩
  have htag : IsTag "ul>".toList := ⟨by decide, fun u => rfl⟩
  have hul : Whole "<ul>".toList := Whole.tag htag (by unfold StartTag.IsOpen; decide) .nil
  have hparted : tree.IsParted := ⟨hul, ⟨.nil, ⟨trivial, trivial⟩, trivial⟩, trivial⟩
  have hsource : tree.source [' '] = "<ul>{@loop xs as x}{@if (x)}<li>{x}</li>{/if}{/loop}</ul>".toList := by
    decide
  have hcomment : NoComment (tree.source [' ']) := by
    rw [hsource]
    unfold NoComment
    decide
  exact ⟨htree, hparted, hcomment, hsource, compile_keeps_markers {} [' ']
    (List.all_eq_true.mp (by decide)) tree htree hparted hcomment (.inl rfl)⟩

/-- The marker of a directive in a group of braces moves with the braces into an attribute. -/
theorem compile_loses_marker : ∃ c, compile {} "\x7b \x7b@if(a)\x7dx\x7b/if\x7d \x7d".toList = .ok c ∧
    NoComment "\x7b \x7b@if(a)\x7dx\x7b/if\x7d \x7d".toList ∧ c.template.markers = [⟨.condition, "page_if_0"⟩] ∧
    c.template.html = "<span pado-text=\"\x7b &lt;!-- if:page_if_0 --&gt; \x7d\"></span>" ∧
    c.template.occurrences ⟨.condition, "page_if_0"⟩ = 0 := by
  have hcompile : compile {} "\x7b \x7b@if(a)\x7dx\x7b/if\x7d \x7d".toList =
      .ok ⟨⟨"<span pado-text=\"\x7b &lt;!-- if:page_if_0 --&gt; \x7d\"></span>",
        [⟨"page_if_0", [⟨.first, some "a", "x"⟩]⟩], [], none⟩, []⟩ := rfl
  refine ⟨_, hcompile, ?_, rfl, rfl, by decide⟩
  unfold NoComment
  decide

end LiveMarkup
