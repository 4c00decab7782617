import LiveMarkup.Proofs.Page.Refinement
import LiveMarkup.Proofs.Template.Nesting
import LiveMarkup.Proofs.Template.Numbering

/-!
# Weights of compiled templates

The marker of a group is read back as its name (`ofComment?_groupComment`).  So each marker of a template without loops has a
weight: by it every group is heavier than what its blocks hold, and the skeleton weighs no more than
there are groups (`weighs_of_compile`).
-/

namespace LiveMarkup

open Text

variable {name seed : String} {cs : List Char} {n m : Nat}

/-! ## Names -/

theorem isBlank_digitChar : ∀ k < 10, isBlank (Nat.digitChar k) = false := by decide

/-- The marker of a group is read as such. -/
theorem ofComment?_groupComment (seed : String) (n : Nat) :
    Marker.ofComment? (groupComment (Names.nameOf seed .condition n)) =
      some ⟨.condition, Names.nameOf seed .condition n⟩ := by
  obtain ⟨ds, d, hds, hd⟩ : ∃ ds d, Nat.toDigits 10 n = ds ++ [d] ∧ isBlank d = false := by
    rcases List.eq_nil_or_concat (Nat.toDigits 10 n) with h | ⟨ds, d, h⟩
    · exact absurd h (Nat.toDigits_ne_nil)
    · rw [List.concat_eq_append] at h
      refine ⟨ds, d, h, ?_⟩
      have hmem : d ∈ Nat.toDigits 10 n := by
        rw [h]
        exact List.mem_append_right _ List.mem_cons_self
      rcases mem_toDigitsCore (by decide) hmem with h | ⟨k, hk, rfl⟩
      exacts [absurd h List.not_mem_nil, isBlank_digitChar k hk]
  obtain ⟨x, hx⟩ : ∃ x, (Names.nameOf seed .condition n).toList = x ++ [d] :=
    ⟨seed.toList ++ ('_' :: 'i' :: 'f' :: '_' :: ds), by
      rw [nameOf_toList, hds]
      simp [DirectiveKind.keyword]⟩
  generalize Names.nameOf seed .condition n = name at hx
  have htrim : trim (groupComment name).toList = 'i' :: 'f' :: ':' :: name.toList := by
    have h1 : isBlank ' ' = true := by decide
    have h2 : isBlank 'i' = false := by decide
    rw [groupComment, String.toList_ofList, hx, trim, List.dropWhile_cons_of_pos h1,
      List.dropWhile_cons_of_neg (by rw [h2]; decide)]
    simp [h1, hd]
  have hafter : after? (DirectiveKind.condition.keyword.toList ++ [':'])
      ('i' :: 'f' :: ':' :: name.toList) = some name.toList := rfl
  have htext : Marker.ofText? .condition ('i' :: 'f' :: ':' :: name.toList) =
      some ⟨.condition, name⟩ := by
    rw [Marker.ofText?, hafter]
    rcases hc : name.toList with _ | ⟨c, cs⟩
    · rw [hc] at hx
      simp at hx
    · simp only
      rw [← hc, String.ofList_toList]
  rw [Marker.ofComment?, htrim, htext]
  rfl

/-! ## Weights -/

section

variable (seed : String) (weight : Nat → Nat) (count : Nat)

/-- What a name weighs, if the names of the first groups have given weights. -/
def nameWeight (name : String) : Nat :=
  match (List.range count).find? fun n => Names.nameOf seed .condition n = name with
  | some n => weight n
  | none => 0

/-- What a comment weighs. -/
def commentWeight (comment : String) : Nat :=
  match Marker.ofComment? comment with
  | some ⟨.condition, name⟩ => nameWeight seed weight count name
  | _ => 0

end

variable {weight : Nat → Nat} {count : Nat} {comment : String}

theorem nameWeight_nameOf (h : n < count) :
    nameWeight seed weight count (Names.nameOf seed .condition n) = weight n := by
  unfold nameWeight
  rcases hf : (List.range count).find? fun m => Names.nameOf seed .condition m =
      Names.nameOf seed .condition n with _ | m
  · exact absurd (decide_eq_true rfl) (List.find?_eq_none.mp hf n (List.mem_range.mpr h))
  · have := List.find?_some hf
    rw [decide_eq_true_eq] at this
    rw [nameOf_injective this]

theorem gives_commentWeight : Gives (commentWeight seed weight count) seed weight 0 count :=
  fun n _ hn => by
    rw [commentWeight, ofComment?_groupComment]
    exact nameWeight_nameOf hn

/-- The text of a marker is the name with what stands before it, blanks around both aside. -/
theorem trim_of_ofComment? (h : Marker.ofComment? comment = some ⟨.condition, name⟩) :
    trim comment.toList = "if:".toList ++ name.toList := by
  have htext : ∀ (kind : DirectiveKind) (cs : List Char) (m : Marker),
      Marker.ofText? kind cs = some m → m.kind = kind ∧ cs = kind.keyword.toList ++ [':'] ++ m.name.toList := by
    intro kind cs m hm
    unfold Marker.ofText? at hm
    split at hm
    · rename_i c rest hafter
      cases hm
      exact ⟨rfl, by rw [String.toList_ofList]; exact after?_eq_some_iff.mp hafter⟩
    · cases hm
  rcases Option.or_eq_some_iff.mp h with h | ⟨-, h⟩
  · rw [(htext _ _ _ h).2]
    rfl
  · cases (htext _ _ _ h).1

theorem onMarks_commentWeight
    (hseed : ∀ n, ∀ c ∈ (Names.nameOf seed .condition n).toList, isMark c = true) :
    OnMarks (commentWeight seed weight count) := by
  intro s hs c hc
  unfold commentWeight at hs
  split at hs
  · rename_i name hm
    have hname : ∀ c ∈ name.toList, isMark c = true := by
      unfold nameWeight at hs
      split at hs
      · rename_i n hn
        have := List.find?_some hn
        rw [decide_eq_true_eq] at this
        exact this ▸ hseed n
      · exact absurd rfl hs
    have htrim := trim_of_ofComment? hm
    rcases mem_trim_or_isBlank hc with h | h
    · rw [htrim] at h
      rcases List.mem_append.mp h with h | h
      · exact List.all_eq_true.mp (by decide : "if:".toList.all isMark = true) c h
      · exact hname c h
    · rw [isMark, h]
      rfl
  · exact absurd rfl hs

/-! ## Compiled templates -/

/-- A group has the name of another one, and its blocks weigh no more than that one's. -/
def ConditionGroup.Below (g g' : ConditionGroup) : Prop :=
  g.name = g'.name ∧ ∀ b ∈ g.blocks, ∃ b' ∈ g'.blocks, ∀ v,
    textWeight v b.content.toList ≤ textWeight v b'.content.toList

theorem applyScope_below (o : CompileOptions) (t : Template) :
    (∀ v, textWeight v (o.applyScope t).html.toList ≤ textWeight v t.html.toList) ∧
    (∀ g ∈ (o.applyScope t).conditions, ∃ g' ∈ t.conditions, g.Below g') ∧
    (∀ g' ∈ t.conditions, ∃ g ∈ (o.applyScope t).conditions, g.name = g'.name) ∧
    ((o.applyScope t).loops = [] → t.loops = []) := by
  rcases o.applyScope_cases t with h | ⟨path, h⟩ <;> rw [h]
  · exact ⟨fun _ => le_rfl, fun g hg => ⟨g, hg, rfl, fun b hb => ⟨b, hb, fun _ => le_rfl⟩⟩,
      fun g hg => ⟨g, hg, rfl⟩, id⟩
  · refine ⟨fun v => ?_, fun g hg => ?_, fun g hg => ?_, fun h => List.map_eq_nil_iff.mp h⟩
    · rw [Template.scopeClasses, String.toList_ofList]
      exact scopeClasses_weight v _ _
    · obtain ⟨g', hg', rfl⟩ := List.mem_map.mp hg
      refine ⟨g', hg', rfl, fun b hb => ?_⟩
      obtain ⟨b', hb', rfl⟩ := List.mem_map.mp hb
      refine ⟨b', hb', fun v => ?_⟩
      rw [String.toList_ofList]
      exact scopeClasses_weight v _ _
    · exact ⟨_, List.mem_map_of_mem hg, rfl⟩

variable {t : Template} {g : ConditionGroup}

theorem records_ofTemplate (hloops : t.loops = []) :
    Records.ofTemplate t = t.conditions.foldl Records.addGroup {} := by
  rw [Records.ofTemplate, hloops]
  rfl

theorem group?_addGroup (r : Records) : (r.addGroup g).group? name =
    if name = g.name then some g else r.group? name :=
  lookup_insertByKey g.name name g r.groups

theorem group?_foldl : ∀ (gs : List ConditionGroup) {r : Records},
    (gs.foldl Records.addGroup r).group? name = some g → r.group? name = some g ∨ g ∈ gs ∧ g.name = name
  | [], _, h => .inl h
  | g' :: gs, r, h => by
    rcases group?_foldl gs h with h | h
    · rw [group?_addGroup] at h
      split at h
      · rename_i hname
        cases h
        exact .inr ⟨List.mem_cons_self, hname.symm⟩
      · exact .inl h
    · exact .inr ⟨List.mem_cons_of_mem g' h.1, h.2⟩

theorem isSome_group?_foldl : ∀ (gs : List ConditionGroup) {r : Records},
    (r.group? name).isSome = true ∨ (∃ g ∈ gs, g.name = name) →
      ((gs.foldl Records.addGroup r).group? name).isSome = true
  | [], _, h => h.resolve_right (by simp)
  | g' :: gs, r, h => by
    refine isSome_group?_foldl gs ?_
    rw [group?_addGroup]
    split
    · exact .inl rfl
    · rename_i hne
      refine h.imp_right ?_
      rintro ⟨g, hg, hname⟩
      rcases List.mem_cons.mp hg with rfl | hg
      exacts [absurd hname.symm hne, ⟨g, hg, hname⟩]

/-- The groups of a template are the records that it has. -/
theorem mem_of_group?_ofTemplate (hloops : t.loops = [])
    (h : (Records.ofTemplate t).group? name = some g) : g ∈ t.conditions ∧ g.name = name := by
  rw [records_ofTemplate hloops] at h
  rcases group?_foldl _ h with h | h
  exacts [absurd h (by simp [Records.group?]), h]

theorem le_size_ofTemplate (seed : String) (hloops : t.loops = [])
    (h : ∀ n < count, ∃ g ∈ t.conditions, g.name = Names.nameOf seed .condition n) :
    count ≤ (Records.ofTemplate t).size := by
  have hnd : ((List.range count).map (Names.nameOf seed .condition)).Nodup :=
    List.Nodup.map (fun _ _ => nameOf_injective) List.nodup_range
  have hsub : (List.range count).map (Names.nameOf seed .condition) ⊆
      (Records.ofTemplate t).groups.map (·.1) := fun name hname => by
    obtain ⟨n, hn, rfl⟩ := List.mem_map.mp hname
    have hsome := isSome_group?_foldl t.conditions (r := {}) (.inr (h n (List.mem_range.mp hn)))
    rw [← records_ofTemplate hloops] at hsome
    obtain ⟨g, hg⟩ := Option.isSome_iff_exists.mp hsome
    obtain ⟨l₁, l₂, heq, -⟩ := List.lookup_eq_some_iff.mp hg
    rw [heq]
    simp
  have hlen := (hnd.subperm hsub).length_le
  rw [List.length_map, List.length_map, List.length_range] at hlen
  exact hlen.trans (Nat.le_add_right _ _)

open View in
/-- The markers of a compiled template can be given weights by which every group is heavier than what
its blocks hold, and all of the skeleton no heavier than there are groups. -/
theorem weighs_of_compile {o : CompileOptions} {source : List Char} {c : Compiled}
    (hc : compile o source = .ok c) (hno : NoComment source) (hloops : c.template.loops = []) :
    ∃ w, Weighs (.ofTemplate c.template) w ∧
      (Forest.ofTrees (Tree.parse c.template.html.toList)).weigh w ≤
        (Records.ofTemplate c.template).size ∧
      9 * (Forest.ofTrees (Tree.parse c.template.html.toList)).weigh w ≤ source.length := by
  obtain ⟨⟨skeleton, f⟩, hfrom, h⟩ := bind_eq_ok_iff.mp hc
  cases h
  obtain ⟨hhtml, hbelow, hnames, hl⟩ := applyScope_below o
    { html := String.ofList (bindMarkup skeleton), conditions := f.conditions, loops := f.loops }
  simp only at hloops ⊢
  set t := o.applyScope
    { html := String.ofList (bindMarkup skeleton), conditions := f.conditions, loops := f.loops }
  have hmarks := isMark_nameOf (isMark_seed o.path) .condition
  have hnested := compileFrom_nested hfrom (Nat.lt_succ_self _) (hl hloops) hno hmarks
  obtain ⟨groups, weight, hgroups, hnamed, hskeleton, hblocks⟩ := hnested.groups
  have hlength := hnested.length
  have hzero : (Names.ofPath o.path).conditions = 0 := by cases o.path <;> rfl
  simp only [hzero, List.nil_append, Nat.sub_zero, Nat.zero_le, forall_true_left, true_and] at *
  set seed := (Names.ofPath o.path).seed
  set count := f.names.conditions
  set v := commentWeight seed weight count
  have hv : OnMarks v := onMarks_commentWeight hmarks
  have hgives : Gives v seed weight 0 count := gives_commentWeight
  have hweigh : (Forest.ofTrees (Tree.parse t.html.toList)).weigh (NodeData.weight v) ≤ count := by
    refine (weigh_parse_le hv _).trans ((hhtml v).trans ?_)
    rw [String.toList_ofList]
    exact ((refines_bindMarkup skeleton).below.weight v).trans (hskeleton v hgives)
  refine ⟨NodeData.weight v, ⟨fun _ => rfl, fun data g hg b hb => ?_⟩, ?_, by omega⟩
  · obtain ⟨s, rfl⟩ : ∃ s, data = .comment s := by
      cases data <;> first | exact ⟨_, rfl⟩ | cases hg
    unfold Records.groupAt? at hg
    simp only at hg
    split at hg
    · rename_i name hm
      obtain ⟨hmem, rfl⟩ := mem_of_group?_ofTemplate hloops hg
      obtain ⟨g', hg', hname, hb'⟩ := hbelow g hmem
      obtain ⟨n, hn, hname', hlt⟩ := hblocks g' (hgroups ▸ hg')
      obtain ⟨b', hb'', hle⟩ := hb' b hb
      have hweight : NodeData.weight v (.comment s) = weight n := by
        rw [NodeData.weight]
        show commentWeight seed weight count s = _
        rw [commentWeight, hm]
        simp only
        rw [hname.trans hname', nameWeight_nameOf hn]
      rw [hweight]
      exact (weigh_parse_le hv _).trans_lt ((hle v).trans_lt (hlt v hgives b' hb''))
    · cases hg
  · refine hweigh.trans (le_size_ofTemplate seed hloops fun n hn => ?_)
    obtain ⟨g, hg, hname⟩ := hnamed n hn
    obtain ⟨g', hg', hname'⟩ := hnames g (hgroups ▸ hg)
    exact ⟨g', hg', hname'.trans hname⟩

end LiveMarkup
