import LiveMarkup.Proofs.Template.Nesting

/-!
# The shape of condition groups

However a source is written, the groups that are compiled from it have a block for `if` first, then
blocks for `elseif`, and at most one block for `else` at the end (`ConditionGroup.WellShaped`): a
header that cannot be read and a branch after the last one stay in the content of a block.  Groups
and loops are numbered from zero, each number once (`compile_wellShaped`).
-/

namespace LiveMarkup

open Text

variable {cs body body' rest test header : List Char} {bs : List Block} {group : String}

/-! ## Groups -/

/-- A text is a condition as it is kept: it is not empty, and there are no blanks around it. -/
def IsCondition (test : List Char) : Prop :=
  test ≠ [] ∧ trim test = test

/-- The blocks of a group after the first one. -/
inductive Branched : List Block → Prop
  | done : Branched []
  | otherwise (content : String) : Branched [⟨.otherwise, none, content⟩]
  | elseIf {test : List Char} {bs : List Block} (content : String) : IsCondition test → Branched bs →
    Branched (⟨.elseIf, some (String.ofList test), content⟩ :: bs)

/-- The blocks of a group are those of `if`, of any number of `elseif` and of one `else` at most. -/
def ConditionGroup.WellShaped (g : ConditionGroup) : Prop :=
  ∃ test content bs, IsCondition test ∧ Branched bs ∧
    g.blocks = ⟨.first, some (String.ofList test), content⟩ :: bs

theorem isCondition_of_header (h : conditionHeader? cs = some (test, header, rest)) : IsCondition test := by
  simp only [conditionHeader?] at h
  split at h
  · simp only [Option.bind_eq_bind, Option.bind_eq_some_iff, Prod.exists] at h
    obtain ⟨condition, r, -, h⟩ := h
    split at h
    · split_ifs at h with hne
      cases h
      exact ⟨hne, trim_trim condition⟩
    · cases h
  · cases h

/-- A block is ended by a branch, or by the end of the text; a header that cannot be read ends
nothing. -/
theorem blocksFrom_branched (group : String) : ∀ (fuel : Nat) (kind : BlockKind) (condition : Option String)
    (segment : List Char) (pos : Nat) (cs : List Char), ∃ content bs, Branched bs ∧
      (blocksFrom group fuel kind condition segment pos cs).1 = ⟨kind, condition, content⟩ :: bs := by
  intro fuel
  induction fuel with
  | zero => exact fun _ _ _ _ _ => ⟨_, [], .done, rfl⟩
  | succ fuel ih =>
    intro kind condition segment pos cs
    rw [blocksFrom]
    split
    · exact ⟨_, [], .done, rfl⟩
    · exact ⟨_, _, .otherwise _, rfl⟩
    · rename_i before rest hb
      split
      · rename_i next header rest' hh
        obtain ⟨content, bs, hbs, heq⟩ := ih .elseIf (some (String.ofList next)) []
          (pos + byteLength before + byteLength (branchOpener ++ ['i', 'f']) + byteLength header) rest'
        exact ⟨_, _, .elseIf content (isCondition_of_header hh) hbs, congrArg _ heq⟩
      · exact ih kind condition _ _ rest

theorem wellShaped_blocks (htest : IsCondition test) :
    ConditionGroup.WellShaped ⟨group, (blocks group test body).1⟩ := by
  obtain ⟨content, bs, hbs, heq⟩ := blocksFrom_branched group (body.length + 1) .first
    (some (String.ofList test)) [] 0 body
  exact ⟨test, content, bs, htest, hbs, heq⟩

/-- The contents of blocks have no part in their shape. -/
theorem Branched.map_content (f : String → String) (h : Branched bs) :
    Branched (bs.map fun b => { b with content := f b.content }) := by
  induction h with
  | done => exact .done
  | otherwise content => exact .otherwise _
  | elseIf content htest _ ih => exact .elseIf _ htest ih

theorem ConditionGroup.WellShaped.map_content {g : ConditionGroup} (f : String → String)
    (h : g.WellShaped) :
    WellShaped { g with blocks := g.blocks.map fun b => { b with content := f b.content } } := by
  obtain ⟨test, content, bs, htest, hbs, heq⟩ := h
  refine ⟨test, f content, _, htest, hbs.map_content f, ?_⟩
  rw [heq, List.map_cons]

/-! ## Compilation -/

variable {f f₁ f₂ f' : Findings} {gs : List ConditionGroup} {ls : List LoopDefinition}

/-- What is found on the way from one state to another: groups that are well shaped, and numbers for
them and for the loops, each once. -/
def Recorded (f f' : Findings) : Prop :=
  ∃ gs ls ms, f'.conditions = f.conditions ++ gs ∧ f'.loops = f.loops ++ ls ∧
    Numbers f.names f'.names ms ∧ (recordMarkers gs ls).Perm ms ∧ ∀ g ∈ gs, g.WellShaped

theorem Recorded.refl (f : Findings) : Recorded f f :=
  ⟨[], [], [], (List.append_nil _).symm, (List.append_nil _).symm, .nil _, .refl _, nofun⟩

/-- A directive was taken out.  Its number was drawn before those in its body, and its record is added
after theirs. -/
theorem Recorded.directive {kind : DirectiveKind} (hbody : Recorded (f.nextName kind).2 f₁)
    (hrest : Recorded f₂ f') (hnames : f₂.names = f₁.names) (hconditions : f₂.conditions = f₁.conditions ++ gs)
    (hloops : f₂.loops = f₁.loops ++ ls) (hrecord : recordMarkers gs ls = [⟨kind, (f.nextName kind).1⟩])
    (hshape : ∀ g ∈ gs, g.WellShaped) : Recorded f f' := by
  obtain ⟨gs₁, ls₁, ms₁, hgs₁, hls₁, hn₁, hp₁, hs₁⟩ := hbody
  obtain ⟨gs₂, ls₂, ms₂, hgs₂, hls₂, hn₂, hp₂, hs₂⟩ := hrest
  refine ⟨gs₁ ++ gs ++ gs₂, ls₁ ++ ls ++ ls₂, ⟨kind, (f.nextName kind).1⟩ :: (ms₁ ++ ms₂), ?_, ?_,
    (Numbers.next f.names kind).append (hn₁.append (hnames ▸ hn₂)),
    perm_recordMarkers hp₁ hrecord hp₂, ?_⟩
  · rw [hgs₂, hconditions, hgs₁]
    simp only [List.append_assoc]
    rfl
  · rw [hls₂, hloops, hls₁]
    simp only [List.append_assoc]
    rfl
  · intro g hg
    rcases List.mem_append.mp hg with hg | hg
    · exact (List.mem_append.mp hg).elim (hs₁ g) (hshape g)
    · exact hs₂ g hg

theorem compileFrom_recorded : ∀ {fuel pos : Nat} {cs out : List Char} {f f' : Findings},
    compileFrom fuel pos cs f = .ok (out, f') → Recorded f f' := by
  intro fuel
  induction fuel with
  | zero =>
    intro pos cs out f f' h
    cases h
    exact .refl f
  | succ fuel ih =>
    intro pos cs out f f' h
    rcases cs with _ | ⟨c, cs⟩
    · cases h
      exact .refl f
    cases compileFrom_round h with
    | pass _ h1 => exact (ih h1 :)
    | condition _ hh h1 h2 =>
      exact .directive (ih h1) (ih h2) rfl rfl (List.append_nil _).symm rfl
        (List.forall_mem_singleton.mpr (wellShaped_blocks (isCondition_of_header hh)))
    | loop _ _ _ h1 h2 =>
      exact .directive (ih h1) (ih h2) rfl (List.append_nil _).symm rfl rfl
        fun _ h => absurd h List.not_mem_nil

/-! ## Templates -/

theorem Numbers.nodup {names names' : Names} {ms : List Marker} (h : Numbers names names' ms) : ms.Nodup := by
  rw [List.nodup_iff_count_le_one]
  intro m
  have hcount : ms.count m = (ms.filter (·.kind = m.kind)).count m := by
    rw [List.count_filter]
    simp
  rw [hcount, h.eq]
  refine List.nodup_iff_count_le_one.mp (List.Nodup.map ?_ (List.Ico.nodup _ _)) m
  intro a b hab
  exact nameOf_injective (Marker.mk.inj hab).2

namespace Template

/-- The markers that the records of a template are found by. -/
def markers (t : Template) : List Marker :=
  recordMarkers t.conditions t.loops

/-- The names of the records that are found by markers of a kind. -/
def namesOf (t : Template) : DirectiveKind → List String
  | .condition => t.conditions.map ConditionGroup.name
  | .loop => t.loops.map LoopDefinition.name

theorem namesOf_eq (t : Template) (kind : DirectiveKind) :
    t.namesOf kind = (t.markers.filter (·.kind = kind)).map Marker.name := by
  cases kind <;>
    simp [namesOf, markers, recordMarkers, List.filter_append, List.filter_map, Function.comp_def]

theorem markers_applyScope (o : CompileOptions) (t : Template) :
    (o.applyScope t).markers = t.markers := by
  rcases o.applyScope_cases t with h | ⟨path, h⟩ <;> rw [h]
  simp [markers, recordMarkers, scopeClasses, Function.comp_def]

theorem wellShaped_applyScope (o : CompileOptions) {t : Template}
    (h : ∀ g ∈ t.conditions, g.WellShaped) : ∀ g ∈ (o.applyScope t).conditions, g.WellShaped := by
  rcases o.applyScope_cases t with heq | ⟨path, heq⟩ <;> rw [heq]
  · exact h
  · intro g hg
    obtain ⟨g', hg', rfl⟩ := List.mem_map.mp hg
    exact (h g' hg').map_content fun html => String.ofList (LiveMarkup.scopeClasses _ html.toList)

end Template

/-- The records of a compiled template are those of markers that were numbered, and its groups are well
shaped. -/
theorem compile_recorded {o : CompileOptions} {source : List Char} {c : Compiled}
    (h : compile o source = .ok c) : ∃ names' ms, Numbers (.ofPath o.path) names' ms ∧
      c.template.markers.Perm ms ∧ ∀ g ∈ c.template.conditions, g.WellShaped := by
  unfold compile at h
  obtain ⟨⟨skeleton, f⟩, hfrom, h⟩ := bind_eq_ok_iff.mp h
  cases h
  obtain ⟨gs, ls, ms, hgs, hls, hn, hp, hshape⟩ := compileFrom_recorded hfrom
  refine ⟨f.names, ms, hn, ?_, Template.wellShaped_applyScope o ?_⟩
  · rw [Template.markers_applyScope, Template.markers]
    rwa [hgs, hls]
  · rwa [hgs]

/-- Whatever is compiled, every group starts with its `if`, goes on with `elseif` and may end with
`else`, and the groups are numbered from zero, each number once, and so are the loops. -/
theorem compile_wellShaped {o : CompileOptions} {source : List Char} {c : Compiled}
    (h : compile o source = .ok c) : (∀ g ∈ c.template.conditions, g.WellShaped) ∧
      ∀ kind, (c.template.namesOf kind).Nodup ∧ (c.template.namesOf kind).Perm
        ((List.range (c.template.namesOf kind).length).map
          (Names.nameOf (Names.ofPath o.path).seed kind)) := by
  obtain ⟨names', ms, hn, hp, hshape⟩ := compile_recorded h
  refine ⟨hshape, fun kind => ?_⟩
  have hzero : (Names.ofPath o.path).given kind = 0 := by
    rcases o.path with _ | _ <;> cases kind <;> rfl
  have hnames : (c.template.namesOf kind).Perm
      ((List.range (names'.given kind)).map (Names.nameOf (Names.ofPath o.path).seed kind)) := by
    have hfilter := (hp.filter (·.kind = kind)).map Marker.name
    rwa [← Template.namesOf_eq, hn.eq, hzero, List.Ico.zero_bot, List.map_map] at hfilter
  have hlength := hnames.length_eq
  rw [List.length_map, List.length_range] at hlength
  refine ⟨hnames.nodup_iff.mpr (List.nodup_range.map fun _ _ => nameOf_injective), ?_⟩
  rwa [hlength]

/-- A header of `elseif` without a condition, a second `else`, and a branch in a loop. -/
theorem compile_wellShaped_stray :
    let source := "\x7b@if( a )\x7dA\x7b@if (b)\x7dx\x7b@elseif()\x7dy\x7b@else\x7dz\x7b@else\x7dw\x7b/if\x7d" ++
      "\x7b@elseif( d )\x7d\x7b@loop xs as x\x7d\x7b@if(c)\x7d1\x7b/if\x7d\x7b@else\x7d\x7b/loop\x7d\x7b/if\x7d"
    ∃ c, compile {} source.toList = .ok c ∧ (∀ g ∈ c.template.conditions, g.WellShaped) ∧
      c.template.namesOf .condition = ["page_if_1", "page_if_2", "page_if_0"] ∧
      (c.template.namesOf .condition).Perm ["page_if_0", "page_if_1", "page_if_2"] ∧
      c.template.conditions.map (fun g => g.blocks.map fun b => (b.kind, b.condition)) =
        [[(.first, some "b"), (.otherwise, none)], [(.first, some "c")],
          [(.first, some "a"), (.elseIf, some "d")]] := by
  intro source
  have hcompile : (compile {} source.toList).toOption.map (fun c => (c.template.namesOf .condition,
      c.template.conditions.map fun g => g.blocks.map fun b => (b.kind, b.condition))) =
        some (["page_if_1", "page_if_2", "page_if_0"], [[(.first, some "b"), (.otherwise, none)],
          [(.first, some "c")], [(.first, some "a"), (.elseIf, some "d")]]) := by
    decide +kernel
  rcases hc : compile {} source.toList with e | c <;> rw [hc] at hcompile
  · cases hcompile
  · obtain ⟨hnames, hblocks⟩ := Prod.mk.inj (Option.some.inj hcompile)
    obtain ⟨hshape, hnamed⟩ := compile_wellShaped hc
    have hperm := (hnamed .condition).2
    rw [hnames] at hperm
    exact ⟨c, rfl, hshape, hnames, hnames ▸ hperm, hblocks⟩

end LiveMarkup
