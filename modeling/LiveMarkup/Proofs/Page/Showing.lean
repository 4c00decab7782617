import LiveMarkup.Proofs.Page.Shows

/-!
# Showing a state in a forest

Each step of showing a state makes a forest show what the step concerns (`Forest.Shows.showMarkers`,
`Forest.Shows.showTexts`, `Forest.Shows.mapElements`), so that at the end it shows the whole state
(`Forest.Shows.shown`), and so does what is made of the markup of a block (`View.made_shows`).
-/

namespace LiveMarkup

open Text

variable {o : ViewOptions} {scope scope' : Scope} {r : Records} {u uc ut ua : Update}
  {make : List Char → Forest Unit} {w : NodeData → Nat} {f markup : Forest Unit} {N : Nat}

namespace Forest

open View

/-- A text without markup is one node at most. -/
theorem ofTrees_parse_text {cs : List Char} (h : '<' ∉ cs) :
    ofTrees (Tree.parse cs) = .nil ∨ ∃ s, ofTrees (Tree.parse cs) = .node () (.text s) .nil .nil .nil := by
  rcases cs with _ | ⟨c, cs⟩
  · left
    rw [show Tree.parse [] = [] from rfl, ofTrees]
  · right
    have hne : ∀ d ∈ c :: cs, (d ≠ '<') = True := fun d hd => by
      simpa using fun heq : d = '<' => h (heq ▸ hd)
    have hread : readEvent (c :: cs) = (textEvent (decodeEntities (c :: cs)), []) := by
      have hc : c ≠ '<' := fun heq => h (heq ▸ List.mem_cons_self)
      have htake : (c :: cs).takeWhile (· ≠ '<') = c :: cs :=
        List.takeWhile_eq_self_iff.mpr fun d hd => by simpa using hne d hd
      have hdrop : (c :: cs).dropWhile (· ≠ '<') = [] :=
        List.dropWhile_eq_nil_iff.mpr fun d hd => by simpa using hne d hd
      unfold readEvent
      split
      all_goals first
        | (rename_i heq; exact absurd (List.cons.inj heq).1 hc)
        | rw [htake, hdrop]
    have hevents : events (c :: cs) = [textEvent (decodeEntities (c :: cs))] := by
      unfold events
      rw [List.length_cons, eventsFrom, hread]
      · cases cs <;> rfl
      · simp
    refine ⟨String.ofList (decodeEntities (c :: cs)), ?_⟩
    have hparse : Tree.parse (c :: cs) =
        [.leaf (.text (String.ofList (decodeEntities (c :: cs))))] := by
      rw [Tree.parse, hevents]
      rfl
    rw [hparse, Tree.leaf, ofTrees, ofTrees]

section

variable {new : NodeData → Option (Forest Unit)}

theorem showMarkers_text {cs : List Char} (h : '<' ∉ cs) (hnew : ∀ s, new (.text s) = none) :
    (ofTrees (Tree.parse cs)).showMarkers new = ofTrees (Tree.parse cs) := by
  rcases ofTrees_parse_text h with hf | ⟨s, hf⟩ <;> rw [hf]
  · rfl
  · simp [showMarkers, hnew]

theorem showTexts_text {cs : List Char} (h : '<' ∉ cs) (hnew : ∀ s, new (.text s) = none) :
    (ofTrees (Tree.parse cs)).showTexts new = ofTrees (Tree.parse cs) := by
  rcases ofTrees_parse_text h with hf | ⟨s, hf⟩ <;> rw [hf]
  · rfl
  · simp [showTexts, hnew]

theorem mapElements_text {cs : List Char} (h : '<' ∉ cs) (change : Element → Element) :
    (ofTrees (Tree.parse cs)).mapElements change = ofTrees (Tree.parse cs) := by
  rcases ofTrees_parse_text h with hf | ⟨s, hf⟩ <;> rw [hf] <;> rfl

end

/-- What is clean is so also with some elements changed, if that leaves what is bound in them. -/
theorem Altered.clean {change : Element → Element} {g : Forest Unit} (hch : Element.Harmless change)
    (ha : f.Altered change g) (h : Clean o scope r f) : Clean o scope r g := by
  induction h generalizing g with
  | nil =>
    rw [show g = .nil from ha]
    exact .nil
  | @node data cs rest hdef ht hcs hg hrest ihcs _ ihrest =>
    obtain ⟨data', cs', ow', rest', rfl, hdata, hc, ho, hr⟩ := ha
    obtain rfl : ow' = .nil := ho
    rcases hdata with rfl | rfl
    · exact .node hdef ht (fun h => ihcs h hc) hg (ihrest hr)
    · have hbound : (data.mapElement change).liveText? = data.liveText? := by
        have : (data.mapElement change).boundText? = data.boundText? := by
          cases data <;> first | rfl | exact hch.text _
        rw [NodeData.liveText?, NodeData.liveText?, this]
      have hgroup : r.groupAt? (data.mapElement change) = r.groupAt? data := by
        cases data <;> rfl
      refine .node (fun e he => ?_) (hbound ▸ ht) (fun h => ihcs (hbound ▸ h) hc) (hgroup ▸ hg)
        (ihrest hr)
      rcases data with _ | _ | e' | s | s | s <;> cases he
      intro t source hb
      rw [hch.bindings] at hb
      exact hdef e' rfl t source hb

theorem Clean.raw {html : List Char} (h : Clean o scope r (ofTrees (Tree.parse html))) :
    Clean o scope r (raw o html) := by
  unfold View.raw
  split
  · exact (altered_mapElements _ _).clean Element.harmless_completeHandlers h
  · exact h

/-- A way of making content makes, of clean markup up to some weight, what shows the state. -/
def Makes (o : ViewOptions) (scope : Scope) (r : Records) (make : List Char → Forest Unit)
    (w : NodeData → Nat) (N : Nat) : Prop :=
  ∀ html, (ofTrees (Tree.parse html)).weigh w < N → Clean o scope r (ofTrees (Tree.parse html)) →
    (∀ n ∈ (raw o html).nodes, n.2.Sane o) →
    Shows o scope r (.keys []) (.keys []) (.keys []) (make html) (raw o html)

/-- With new content for the groups that an update concerns, all groups show the state. -/
theorem Shows.showMarkers (hw : Weighs r w) (hr : r.Sane o) (hmake : Makes o scope r make w N)
    (h : Shows o scope r uc ut ua f markup) (hc : Clean o scope r markup)
    (hN : markup.weigh w ≤ N) :
    Shows o scope r (.keys []) ut ua (f.showMarkers (newContent o scope r make uc)) markup := by
  have hnew : ∀ s, newContent o scope r make uc (.text s) = none := fun s => rfl
  induction f generalizing markup with
  | nil => exact h
  | node id data' cs' ow' rest' ihc iho ihr =>
    obtain ⟨data, cs, rest, rfl, hdata, htext, hgroup, hrest⟩ := h
    obtain _ | ⟨hdef, hclean, hcs, hcg, hcr⟩ := hc
    simp only [weigh] at hN
    refine ⟨data, cs, rest, rfl, hdata, ?_, ?_, ihr hrest hcr (by omega)⟩
    · rcases ht : data.liveText? with _ | text <;> rw [ht] at htext
      · exact ihc htext (hcs ht) (by omega)
      · refine htext.imp_right fun heq => ?_
        rw [heq]
        exact showMarkers_text (hclean text ht) hnew
    · have heq : newContent o scope r make uc data' = newContent o scope r make uc data := by
        rw [newContent, hdata.groupAt?_eq]
        rfl
      rw [heq]
      rcases hg : r.groupAt? data with _ | g <;> rw [hg] at hgroup
      · simp only at hgroup
        subst hgroup
        simp [newContent, hg, Forest.showMarkers]
      · refine .inr ?_
        have hweight := hw.blocks data g hg
        by_cases hmeets : uc.meets g.vars = true
        · have hsome : newContent o scope r make uc data = some (groupContent o scope make g) := by
            simp [newContent, hg, hmeets, Option.filter]
          rw [hsome, Option.getD_some, groupContent_eq]
          rcases hmk : groupMarkup? o scope g with _ | html
          · rfl
          · obtain ⟨b, hb, rfl⟩ := mem_of_groupMarkup? hmk
            obtain ⟨name, hname⟩ := Records.group?_of_groupAt? hg
            have := hweight b hb
            exact (hmake _ (by omega) (hcg g _ hg hmk) (hr.blocks name g hname b hb)).weaken
        · have hnone : newContent o scope r make uc data = none := by
            simp [newContent, hg, hmeets, Option.filter]
          rw [hnone, Option.getD_none]
          have hgroup := hgroup.resolve_left hmeets
          rcases hmk : groupMarkup? o scope g with _ | html <;> rw [hmk] at hgroup
          · simp only at hgroup ⊢
            rw [hgroup, Forest.showMarkers]
          · obtain ⟨b, hb, rfl⟩ := mem_of_groupMarkup? hmk
            have := hweight b hb
            exact iho hgroup (hcg g _ hg hmk).raw (by rw [weigh_raw hw.elements]; omega)

/-- With the texts shown that an update concerns, all texts show the state. -/
theorem Shows.showTexts (hr : r.Sane o) (h : Shows o scope r uc ut ua f markup)
    (hc : Clean o scope r markup) (hm : ∀ n ∈ markup.nodes, n.2.Sane o) :
    Shows o scope r uc (.keys []) ua (f.showTexts (newText o scope ut)) markup := by
  have hnew : ∀ s, newText o scope ut (.text s) = none := fun s => rfl
  induction f generalizing markup with
  | nil => exact h
  | node id data' cs' ow' rest' ihc iho ihr =>
    obtain ⟨data, cs, rest, rfl, hdata, htext, hgroup, hrest⟩ := h
    obtain _ | ⟨hdef, hclean, hcs, hcg, hcr⟩ := hc
    simp only [nodes, List.mem_cons, List.mem_append, List.not_mem_nil, false_or, or_imp,
      forall_and, forall_eq] at hm
    obtain ⟨hself, hmcs, hmr⟩ := hm
    have hbound := hdata.boundText?_eq hself
    refine ⟨data, cs, rest, rfl, hdata, ?_, ?_, ihr hrest hcr hmr⟩
    · rcases ht : data.liveText? with _ | text <;> rw [ht] at htext
      · have hnone : newText o scope ut data' = none := by
          rw [newText, hbound, Option.map_eq_none_iff, Option.filter_eq_none_iff]
          intro text hb hmeets
          rw [NodeData.liveText?, hb, Option.filter_some,
            if_pos (Update.meetsText_all_of_meetsText hmeets)] at ht
          cases ht
        rw [hnone]
        exact ihc htext (hcs ht) hmcs
      · refine .inr ?_
        have hb : data'.boundText? = some text := hbound.trans (Option.filter_eq_some_iff.mp ht).1
        by_cases hmeets : ut.meetsText text.toList = true
        · have hsome : newText o scope ut data' =
              some (ofTrees (Tree.parse (renderedText o scope text))) := by
            rw [newText, hb, Option.filter_some, if_pos hmeets]
            rfl
          rw [hsome, Option.getD_some]
        · have hnone : newText o scope ut data' = none := by
            rw [newText, hb, Option.filter_some, if_neg hmeets]
            rfl
          rw [hnone, Option.getD_none, htext.resolve_left hmeets]
          exact showTexts_text (hclean text ht) hnew
    · rcases hg : r.groupAt? data with _ | g <;> rw [hg] at hgroup
      · simp only at hgroup ⊢
        rw [hgroup, Forest.showTexts]
      · refine hgroup.imp_right fun hgroup => ?_
        rcases hmk : groupMarkup? o scope g with _ | html <;> rw [hmk] at hgroup
        · simp only at hgroup ⊢
          rw [hgroup, Forest.showTexts]
        · obtain ⟨name, hname⟩ := Records.group?_of_groupAt? hg
          obtain ⟨b, hb, rfl⟩ := mem_of_groupMarkup? hmk
          exact iho hgroup (hcg g _ hg hmk).raw (hr.blocks name g hname b hb)

/-- With the attributes shown that an update concerns, all attributes show the state. -/
theorem Shows.mapElements (hr : r.Sane o) (h : Shows o scope r uc ut ua f markup)
    (hc : Clean o scope r markup) (hm : ∀ n ∈ markup.nodes, n.2.Sane o)
    (ht0 : ut = .keys []) :
    Shows o scope r uc ut (.keys []) (f.mapElements (newAttributes o scope ua)) markup := by
  induction f generalizing markup with
  | nil => exact h
  | node id data' cs' ow' rest' ihc iho ihr =>
    obtain ⟨data, cs, rest, rfl, hdata, htext, hgroup, hrest⟩ := h
    obtain _ | ⟨hdef, hclean, hcs, hcg, hcr⟩ := hc
    simp only [nodes, List.mem_cons, List.mem_append, List.not_mem_nil, false_or, or_imp,
      forall_and, forall_eq] at hm
    obtain ⟨hself, hmcs, hmr⟩ := hm
    refine ⟨data, cs, rest, rfl, ?_, ?_, ?_, ihr hrest hcr hmr⟩
    · rcases data with _ | _ | e | s | s | s
      case element =>
        obtain ⟨e', rfl, he⟩ := hdata
        exact ⟨_, rfl, he.newAttributes (hself.distinct e rfl) (hself.plain e rfl) (hdef e rfl)⟩
      all_goals
        obtain rfl := hdata
        rfl
    · rcases ht : data.liveText? with _ | text <;> rw [ht] at htext
      · exact ihc htext (hcs ht) hmcs
      · refine .inr ?_
        rw [htext.resolve_left (by simp [ht0])]
        exact mapElements_text (hclean text ht) _
    · rcases hg : r.groupAt? data with _ | g <;> rw [hg] at hgroup
      · simp only at hgroup ⊢
        rw [hgroup, Forest.mapElements]
      · refine hgroup.imp_right fun hgroup => ?_
        rcases hmk : groupMarkup? o scope g with _ | html <;> rw [hmk] at hgroup
        · simp only at hgroup ⊢
          rw [hgroup, Forest.mapElements]
        · obtain ⟨name, hname⟩ := Records.group?_of_groupAt? hg
          obtain ⟨b, hb, rfl⟩ := mem_of_groupMarkup? hmk
          exact iho hgroup (hcg g _ hg hmk).raw (hr.blocks name g hname b hb)

/-- What an update does not concern showed the state before; with the rest shown, all shows it. -/
theorem Shows.shown (hw : Weighs r w) (hr : r.Sane o) (hmake : Makes o scope r make w N)
    (h : Shows o scope r u u u f markup) (hc : Clean o scope r markup)
    (hm : ∀ n ∈ markup.nodes, n.2.Sane o) (hN : markup.weigh w ≤ N) :
    Shows o scope r (.keys []) (.keys []) (.keys []) (shown o scope r make u f) markup :=
  ((h.showMarkers hw hr hmake hc hN).showTexts hr hc hm).mapElements hr hc hm rfl

theorem cost_text {cs : List Char} (h : '<' ∉ cs) :
    (ofTrees (Tree.parse cs)).cost (newContent o scope r make u) w = 0 := by
  rcases ofTrees_parse_text h with hf | ⟨s, hf⟩ <;> rw [hf] <;> rfl

/-- What an update costs in a forest that shows a state is no more than what the markup weighs. -/
theorem Shows.cost_le (hw : Weighs r w) (h : Shows o scope r (.keys []) (.keys []) (.keys []) f markup)
    (hc : Clean o scope r markup) :
    f.cost (newContent o scope' r make u) w ≤ markup.weigh w := by
  induction f generalizing markup with
  | nil => exact Nat.zero_le _
  | node id data' cs' ow' rest' ihc iho ihr =>
    obtain ⟨data, cs, rest, rfl, hdata, hlive, hgroup, hrest⟩ := h
    obtain _ | ⟨hdef, hclean, hcs, hcg, hcr⟩ := hc
    have h1 : cs'.cost (newContent o scope' r make u) w ≤ cs.weigh w := by
      rcases ht : data.liveText? with _ | text <;> rw [ht] at hlive
      · exact ihc hlive (hcs ht)
      · rw [hlive.resolve_left (by simp), cost_text (hclean text ht)]
        exact Nat.zero_le _
    have h2 : (if (newContent o scope' r make u data').isSome then w data'
        else ow'.cost (newContent o scope' r make u) w) ≤ w data := by
      rcases hg : r.groupAt? data with _ | g <;> rw [hg] at hgroup
      · have hnone : newContent o scope' r make u data' = none := by
          rw [newContent, hdata.groupAt?_eq, hg]
          rfl
        simp only at hgroup
        rw [hnone, hgroup]
        exact Nat.zero_le _
      · have hsame : data' = data := by
          cases data <;> first | exact hdata | cases hg
        split
        · rw [hsame]
        · have hgroup := hgroup.resolve_left (by simp)
          rcases hmk : groupMarkup? o scope g with _ | html <;> rw [hmk] at hgroup
          · simp only at hgroup
            rw [hgroup]
            exact Nat.zero_le _
          · obtain ⟨b, hb, rfl⟩ := mem_of_groupMarkup? hmk
            have h3 := iho hgroup (hcg g _ hg hmk).raw
            rw [weigh_raw hw.elements] at h3
            exact h3.trans (hw.blocks data g hg b hb).le
    have h3 := ihr hrest hcr
    simp only [cost, weigh]
    omega

end Forest

open Forest in
/-- With enough fuel, what is made of clean markup shows the state. -/
theorem View.made_shows (hw : Weighs r w) (hr : r.Sane o) : ∀ N,
    Makes o scope r (made o scope r N) w N
  | 0, html, hlt, _, _ => absurd hlt (Nat.not_lt_zero _)
  | N + 1, html, hlt, hc, hm =>
    (Shows.raw (bare_raw o html)).shown hw hr (made_shows hw hr N) hc.raw hm
      (by rw [weigh_raw hw.elements]; omega)

end LiveMarkup
