import LiveMarkup.Proofs.Template.Completion
import LiveMarkup.Proofs.Template.Numbering
import LiveMarkup.Proofs.Template.Scanning

/-!
# Trees of directives are recovered

Branches are found by looking for the next one in a body whose directives are markers already.  If no
text holds what begins or ends a directive, this finds what was meant: the compilation of the source
of a tree yields what the tree tells (`compileFrom_source`).
-/

namespace LiveMarkup

open Text

variable {s u : List Char} {names : Names} {gap : List Char}

/-! ## Branches -/

theorem findBranch?_of_passes (h : Passes branchOpener u s) : findBranch? (s ++ u) =
    (findBranch? u).map fun (a, b) => (s ++ a, b) := by
  induction s with
  | nil => simp
  | cons c s ih =>
    have hnone : after? branchOpener (c :: (s ++ u)) = none := h.1
    rw [List.cons_append, findBranch?, hnone, Option.bind_none, ih h.2, Option.map_map]
    rfl

theorem findBranch?_nil_of_passes (h : Passes branchOpener [] s) : findBranch? s = none := by
  have := findBranch?_of_passes h
  rw [List.append_nil] at this
  rw [this]
  rfl

theorem findBranch?_branchOpener {branch : Branch} {r rest : List Char}
    (h : branchAfter? r = some (branch, rest)) :
    findBranch? (branchOpener ++ r) = some ([], branch, rest) := by
  have hafter : after? branchOpener (branchOpener ++ r) = some r := after?_eq_some_iff.mpr rfl
  have hsum : branchOpener ++ r = '\x7b' :: (branchOpener.tail ++ r) := rfl
  rw [hsum] at hafter ⊢
  rw [findBranch?, hafter, Option.bind_some, h]

theorem branchAfter?_testHeader {test : List Char} (hgap : ∀ c ∈ gap, isAsciiBlank c = true) :
    branchAfter? ('i' :: 'f' :: (testHeader gap test ++ u)) =
      some (.elseIf, testHeader gap test ++ u) := by
  rw [branchAfter?, dropWhile_testHeader hgap]
  rfl

/-- A marker holds no brace if the seed of the names holds none. -/
theorem markup_no_brace (h : '\x7b' ∉ names.seed.toList) (kind : DirectiveKind) :
    '\x7b' ∉ (Marker.mk kind (names.next kind).1).markup := by
  have hname : ∀ n, '\x7b' ∉ (Names.nameOf names.seed kind n).toList := fun n hmem => by
    rw [nameOf_toList] at hmem
    simp only [List.mem_append, List.mem_cons] at hmem
    rcases hmem with hmem | hmem | hmem | hmem | hmem
    · exact h hmem
    · revert hmem
      decide
    · cases kind <;> revert hmem <;> decide
    · revert hmem
      decide
    · cases Nat.isDigit_of_mem_toDigits (by decide) (by decide) hmem
  intro hmem
  rw [names.next_fst] at hmem
  simp only [Marker.markup_def, Marker.text, String.toList_append, List.mem_append] at hmem
  rcases hmem with (hmem | ((hmem | hmem) | hmem)) | hmem
  · revert hmem
    decide
  · cases kind <;> revert hmem <;> decide
  · revert hmem
    decide
  · exact hname _ hmem
  · revert hmem
    decide

/-- The search for a branch passes over the skeleton of a template. -/
theorem passes_skeleton : ∀ (f : Outline) {names : Names} {u : List Char}, f.WellFormed →
    '\x7b' ∉ names.seed.toList → BeginsNew u → Passes branchOpener u (f.skeleton names)
  | .text cs, names, u, hf, _, hu => by
    rw [Outline.skeleton]
    exact passes_bare branchOpener_mem (hf _ branchOpener_mem) hu
  | .directive cs d rest, names, u, hf, hseed, hu => by
    obtain ⟨hcs, -, hrest⟩ := hf
    rw [Outline.skeleton]
    refine (passes_bare branchOpener_mem (hcs _ branchOpener_mem) ?_).append
      ((passes_of_no_brace branchOpener_mem (markup_no_brace hseed d.kind)).append ?_)
    · intro c hc
      exact .inr (Option.some.inj hc).symm
    · exact passes_skeleton rest hrest (by rwa [(numbers_directive d names).seed]) hu

/-- The text of branches once their directives are markers. -/
def Branches.skeleton (gap : List Char) (names : Names) : Branches → List Char
  | .done => []
  | .otherwise body => branchOpener ++ '\x7d' :: body.skeleton names
  | .elseIf test body more => branchOpener ++ 'i' :: 'f' ::
      (testHeader gap test ++ (body.skeleton names ++ more.skeleton gap (body.namesAfter names)))

theorem beginsNew_skeleton (b : Branches) : BeginsNew (b.skeleton gap names) := by
  cases b with
  | done => exact beginsNew_nil
  | otherwise => exact beginsNew_brace
  | elseIf => exact beginsNew_brace

/-- The blocks of a group are found, and nothing is wrong with them. -/
theorem blocksFrom_skeleton (hgap : ∀ c ∈ gap, isAsciiBlank c = true) (group : String) :
    ∀ (more : Branches) {names : Names} {s : List Char} {fuel pos : Nat} {kind : BlockKind}
      {test : Option String}, more.WellFormed → '\x7b' ∉ names.seed.toList →
        Passes branchOpener (more.skeleton gap names) s → (more.skeleton gap names).length < fuel →
          blocksFrom group fuel kind test [] pos (s ++ more.skeleton gap names) =
            (⟨kind, test, blockContent s⟩ :: more.blocks names, [])
  | .done, names, s, fuel + 1, pos, kind, test, _, _, hs, _ => by
    rw [Branches.skeleton] at hs ⊢
    rw [List.append_nil, blocksFrom, findBranch?_nil_of_passes hs, Branches.blocks]
    simp
  | .otherwise body, names, s, fuel + 1, pos, kind, test, hmore, hseed, hs, _ => by
    rw [Branches.skeleton] at hs ⊢
    have hnone : findBranch? (body.skeleton names) = none :=
      findBranch?_nil_of_passes (passes_skeleton body hmore hseed beginsNew_nil)
    have hfind : findBranch? (s ++ (branchOpener ++ '\x7d' :: body.skeleton names)) =
        some (s, .otherwise, body.skeleton names) := by
      rw [findBranch?_of_passes hs, findBranch?_branchOpener rfl]
      simp
    rw [blocksFrom, hfind]
    simp only [hnone, List.nil_append]
    rfl
  | .elseIf test' body more, names, s, fuel + 1, pos, kind, test, hmore, hseed, hs, hfuel => by
    obtain ⟨htest, hbody, hmore⟩ := hmore
    rw [Branches.skeleton] at hs hfuel ⊢
    have hfind : findBranch? (s ++ (branchOpener ++ 'i' :: 'f' :: (testHeader gap test' ++
        (body.skeleton names ++ more.skeleton gap (body.namesAfter names))))) =
          some (s, .elseIf, testHeader gap test' ++
            (body.skeleton names ++ more.skeleton gap (body.namesAfter names))) := by
      rw [findBranch?_of_passes hs, findBranch?_branchOpener (branchAfter?_testHeader hgap)]
      simp
    have hlen : (more.skeleton gap (body.namesAfter names)).length < fuel := by
      simp only [List.length_append, List.length_cons] at hfuel
      omega
    rw [blocksFrom, hfind]
    simp only [conditionHeader?_testHeader htest hgap]
    rw [blocksFrom_skeleton hgap group more hmore (by rwa [(numbers_outline body names).seed])
      (passes_skeleton body hbody hseed (beginsNew_skeleton more)) hlen]
    rfl

/-! ## Compilation -/

/-- What the compilation of a text yields, whatever its place and with any fuel that is enough. -/
def Yields (cs : List Char) (f : Findings) (out : List Char) (f' : Findings) : Prop :=
  ∀ fuel pos, cs.length < fuel → compileFrom fuel pos cs f = .ok (out, f')

section

variable {f f₁ f' : Findings} {out r body : List Char}

theorem Yields.nil (f : Findings) : Yields [] f [] f
  | fuel + 1, pos, _ => by rw [compileFrom]

theorem Yields.pass (h : Yields u f out f') (hs : ∀ kind : DirectiveKind, Passes kind.opener u s) :
    Yields (s ++ u) f (s ++ out) f' := by
  induction s with
  | nil => exact h
  | cons c s ih =>
    intro fuel pos hfuel
    obtain ⟨fuel, rfl⟩ := Nat.exists_eq_add_of_le' (show 1 ≤ fuel by omega)
    have hnone : directive? (c :: (s ++ u)) = none := by
      have hopen : ∀ kind, opener? kind (c :: (s ++ u)) = none := fun kind => opener?_eq_none (hs kind).1
      rw [directive?, hopen .condition, hopen .loop]
      rfl
    rw [List.cons_append, compileFrom, hnone]
    dsimp only
    rw [ih (fun kind => (hs kind).2) fuel _ (by simpa using hfuel), ok_bind]
    rfl

theorem Yields.group {test body' : List Char} {bs : List Block}
    (hopen : opener? .condition (DirectiveKind.condition.opener ++ r) = some r)
    (hd : ∀ pos, openDirective .condition pos r = .ok (.ok (.condition test body, u)))
    (hbody : Yields body (f.nextName .condition).2 body' f₁)
    (hblocks : blocks (f.nextName .condition).1 test body' = (bs, []))
    (hu : Yields u { f₁ with conditions := f₁.conditions ++ [⟨(f.nextName .condition).1, bs⟩] } out f') :
    Yields (DirectiveKind.condition.opener ++ r) f
      ((Marker.mk .condition (f.nextName .condition).1).markup ++ out) f' := by
  intro fuel pos hfuel
  obtain ⟨fuel, rfl⟩ := Nat.exists_eq_add_of_le' (show 1 ≤ fuel by omega)
  obtain ⟨hlen, hlen'⟩ := ((opens_iff 0 hopen).mpr ⟨_, hd 0, rfl⟩).length_lt
  have hlen : body.length < _ := hlen
  have hsum : DirectiveKind.condition.opener ++ r =
      '\x7b' :: (DirectiveKind.condition.opener.tail ++ r) := rfl
  have hdirective := directive?_eq_some_iff.mpr hopen
  rw [hsum] at hdirective hfuel hlen hlen' ⊢
  rw [compileFrom, hdirective]
  dsimp only
  rw [hd, ok_bind]
  dsimp only
  rw [hbody fuel 0 (by omega), ok_bind]
  dsimp only
  rw [hblocks]
  dsimp only
  rw [List.append_nil, pure_bind, hu fuel _ (by omega), ok_bind]
  rfl

theorem Yields.loop {array item body' : List Char}
    (hopen : opener? .loop (DirectiveKind.loop.opener ++ r) = some r)
    (hd : ∀ pos, openDirective .loop pos r = .ok (.ok (.loop array item body, u)))
    (hbody : Yields body (f.nextName .loop).2 body' f₁)
    (hu : Yields u { f₁ with loops := f₁.loops ++
      [⟨(f.nextName .loop).1, String.ofList array, String.ofList item, blockContent body'⟩] } out f') :
    Yields (DirectiveKind.loop.opener ++ r) f
      ((Marker.mk .loop (f.nextName .loop).1).markup ++ out) f' := by
  intro fuel pos hfuel
  obtain ⟨fuel, rfl⟩ := Nat.exists_eq_add_of_le' (show 1 ≤ fuel by omega)
  obtain ⟨hlen, hlen'⟩ := ((opens_iff 0 hopen).mpr ⟨_, hd 0, rfl⟩).length_lt
  have hlen : body.length < _ := hlen
  have hsum : DirectiveKind.loop.opener ++ r =
      '\x7b' :: (DirectiveKind.loop.opener.tail ++ r) := rfl
  have hdirective := directive?_eq_some_iff.mpr hopen
  rw [hsum] at hdirective hfuel hlen hlen' ⊢
  rw [compileFrom, hdirective]
  dsimp only
  rw [hd, ok_bind]
  dsimp only
  rw [hbody fuel 0 (by omega), ok_bind]
  dsimp only
  rw [pure_bind, hu fuel _ (by omega), ok_bind]
  rfl

end

/-- Findings with what a template yields. -/
def Outline.findings (f : Findings) (o : Outline) : Findings where
  names := o.namesAfter f.names
  conditions := f.conditions ++ o.groups f.names
  loops := f.loops ++ o.loops f.names
  warnings := f.warnings

/-- Findings with what a directive yields. -/
def Directive.findings (f : Findings) (d : Directive) : Findings where
  names := d.namesAfter f.names
  conditions := f.conditions ++ d.groups f.names
  loops := f.loops ++ d.loops f.names
  warnings := f.warnings

/-- Findings with what branches yield. -/
def Branches.findings (f : Findings) (b : Branches) : Findings where
  names := b.namesAfter f.names
  conditions := f.conditions ++ b.groups f.names
  loops := f.loops ++ b.loops f.names
  warnings := f.warnings

mutual

/-- The source of a template yields its skeleton, and then what follows it. -/
theorem yields_outline (hgap : ∀ c ∈ gap, isAsciiBlank c = true) : ∀ (o : Outline) {f f' : Findings}
    {u out : List Char}, o.WellFormed → '\x7b' ∉ f.names.seed.toList → BeginsNew u →
      Yields u (o.findings f) out f' → Yields (o.source gap ++ u) f (o.skeleton f.names ++ out) f'
  | .text cs, f, f', u, out, ho, _, hu, h => by
    have hf : Outline.findings f (.text cs) = f := by
      simp [Outline.findings, Outline.namesAfter, Outline.groups, Outline.loops]
    rw [hf] at h
    rw [Outline.source, Outline.skeleton]
    exact h.pass fun kind => passes_bare (opener_mem kind) (ho _ (opener_mem kind)) hu
  | .directive cs d rest, f, f', u, out, ho, hseed, hu, h => by
    obtain ⟨hcs, hd, hrest⟩ := ho
    have hf : Outline.findings f (.directive cs d rest) = rest.findings (d.findings f) := by
      simp [Outline.findings, Directive.findings, Outline.namesAfter, Outline.groups, Outline.loops]
    rw [hf] at h
    have hseed' : '\x7b' ∉ (d.findings f).names.seed.toList := by
      rw [Directive.findings]
      dsimp only
      rwa [(numbers_directive d _).seed]
    have hfollow := yields_outline hgap rest hrest hseed' hu h
    have hdirective := yields_directive hgap d hd hseed hfollow
    rw [Outline.source, Outline.skeleton]
    have hbare := hdirective.pass (s := cs) fun kind =>
      passes_bare (opener_mem kind) (hcs _ (opener_mem kind)) (beginsNew_directive gap d _)
    simpa [Directive.findings] using hbare

/-- The source of a directive yields its marker. -/
theorem yields_directive (hgap : ∀ c ∈ gap, isAsciiBlank c = true) : ∀ (d : Directive) {f f' : Findings}
    {u out : List Char}, d.WellFormed → '\x7b' ∉ f.names.seed.toList → Yields u (d.findings f) out f' →
      Yields (d.source gap ++ u) f ((Marker.mk d.kind (f.names.next d.kind).1).markup ++ out) f'
  | .group test body more, f, f', u, out, hd, hseed, h => by
    obtain ⟨htest, hbody, hmore⟩ := hd
    set inner := (f.nextName .condition).2 with hinner
    have hseed' : '\x7b' ∉ inner.names.seed.toList := hseed
    have hseed'' : '\x7b' ∉ (body.findings inner).names.seed.toList := by
      rw [Outline.findings]
      dsimp only
      rwa [(numbers_outline body _).seed]
    have hbegins : BeginsNew (more.source gap) := by
      simpa using beginsNew_branches gap more beginsNew_nil
    have hinside := yields_outline hgap body hbody hseed' hbegins
      (yields_branches hgap more hmore hseed'')
    have hblocks : blocks (f.nextName .condition).1 test
        (body.skeleton inner.names ++ more.skeleton gap (body.namesAfter inner.names)) =
          (body.block inner.names .first (some test) :: more.blocks (body.namesAfter inner.names), []) :=
      blocksFrom_skeleton hgap _ more hmore hseed''
        (passes_skeleton body hbody hseed' (beginsNew_skeleton more))
        (by rw [List.length_append]; omega)
    rw [Directive.source, List.append_assoc]
    refine .group ?_ (fun pos => openDirective_group hgap pos htest hbody hmore) hinside hblocks ?_
    · rw [List.append_assoc]
      exact opener?_testHeader hgap
    · have hf : Directive.findings f (.group test body more) =
          { more.findings (body.findings inner) with
            conditions := (more.findings (body.findings inner)).conditions ++
              [⟨(f.nextName .condition).1,
                body.block inner.names .first (some test) :: more.blocks (body.namesAfter inner.names)⟩] } := by
        simp [Directive.findings, Branches.findings, Outline.findings, Directive.namesAfter,
          Directive.groups, Directive.loops, hinner, Findings.nextName]
      rwa [← hf]
  | .loop array item body, f, f', u, out, hd, hseed, h => by
    obtain ⟨harray, hitem, hbody⟩ := hd
    set inner := (f.nextName .loop).2 with hinner
    have hseed' : '\x7b' ∉ inner.names.seed.toList := hseed
    have hinside := yields_outline hgap body hbody hseed' beginsNew_nil (.nil (body.findings inner))
    rw [List.append_nil, List.append_nil] at hinside
    rw [Directive.source, List.append_assoc]
    refine .loop ?_ (fun pos => openDirective_loop hgap pos harray hitem hbody) hinside ?_
    · rw [List.append_assoc, List.append_assoc]
      exact opener?_loopHeader
    · have hf : Directive.findings f (.loop array item body) =
          { body.findings inner with
            loops := (body.findings inner).loops ++ [⟨(f.nextName .loop).1, String.ofList array,
              String.ofList item, blockContent (body.skeleton inner.names)⟩] } := by
        simp [Directive.findings, Outline.findings, Directive.namesAfter, Directive.groups,
          Directive.loops, hinner, Findings.nextName]
      rwa [← hf]

/-- The source of branches yields their skeletons. -/
theorem yields_branches (hgap : ∀ c ∈ gap, isAsciiBlank c = true) : ∀ (b : Branches) {f : Findings},
    b.WellFormed → '\x7b' ∉ f.names.seed.toList →
      Yields (b.source gap) f (b.skeleton gap f.names) (b.findings f)
  | .done, f, _, _ => by
    have hf : Branches.findings f .done = f := by
      simp [Branches.findings, Branches.namesAfter, Branches.groups, Branches.loops]
    rw [hf, Branches.source, Branches.skeleton]
    exact .nil f
  | .otherwise body, f, hb, hseed => by
    have hbody := yields_outline hgap body hb hseed beginsNew_nil (.nil (body.findings f))
    rw [List.append_nil, List.append_nil] at hbody
    have hf : Branches.findings f (.otherwise body) = body.findings f := by
      simp [Branches.findings, Outline.findings, Branches.namesAfter, Branches.groups, Branches.loops]
    rw [hf, Branches.source, Branches.skeleton]
    have hbrace : Yields ('\x7d' :: body.source gap) f ('\x7d' :: body.skeleton f.names)
        (body.findings f) :=
      hbody.pass (s := ['\x7d']) fun kind => passes_of_no_brace (opener_mem kind) (by decide)
    exact hbrace.pass fun kind =>
      passes_mark (opener_mem kind) branchOpener_mem (by cases kind <;> decide)
  | .elseIf test body more, f, hb, hseed => by
    obtain ⟨htest, hbody, hmore⟩ := hb
    have hseed' : '\x7b' ∉ (body.findings f).names.seed.toList := by
      rw [Outline.findings]
      dsimp only
      rwa [(numbers_outline body _).seed]
    have hbegins : BeginsNew (more.source gap) := by
      simpa using beginsNew_branches gap more beginsNew_nil
    have hinside := yields_outline hgap body hbody hseed hbegins
      (yields_branches hgap more hmore hseed')
    have hf : Branches.findings f (.elseIf test body more) = more.findings (body.findings f) := by
      simp [Branches.findings, Outline.findings, Branches.namesAfter, Branches.groups, Branches.loops]
    rw [hf, Branches.source, Branches.skeleton]
    have hheader := hinside.pass (s := testHeader gap test) fun kind =>
      passes_of_no_brace (opener_mem kind) (htest.no_brace hgap)
    have hword := hheader.pass (s := ['i', 'f']) fun kind =>
      passes_of_no_brace (opener_mem kind) (by decide)
    exact hword.pass fun kind =>
      passes_mark (opener_mem kind) branchOpener_mem (by cases kind <;> decide)

end

theorem seed_no_brace (path : Option String) : '\x7b' ∉ (Names.ofPath path).seed.toList := fun hmem => by
  have := isMark_seed path _ hmem
  revert this
  decide

/-- The compilation of a whole source, before it is known how its directives are numbered. -/
theorem compileFrom_outline (path : Option String) (hgap : ∀ c ∈ gap, isAsciiBlank c = true)
    {o : Outline} (ho : o.WellFormed) :
    compileFrom ((o.source gap).length + 1) 0 (o.source gap) { names := .ofPath path } =
      .ok (o.skeleton (.ofPath path), o.findings { names := .ofPath path }) := by
  have h := yields_outline hgap o (f := { names := .ofPath path }) ho (seed_no_brace path)
    beginsNew_nil (.nil _)
  rw [List.append_nil, List.append_nil] at h
  exact h _ 0 (Nat.lt_succ_self _)

/-- The compilation of the source of a tree yields what the tree tells, without a warning.  The
directives of each kind are numbered from zero in the order in which they open, and each of them has
its record. -/
theorem compileFrom_source (path : Option String) (gap : List Char)
    (hgap : ∀ c ∈ gap, isAsciiBlank c = true) (o : Outline) (ho : o.WellFormed) :
    let names := Names.ofPath path
    compileFrom ((o.source gap).length + 1) 0 (o.source gap) { names } =
        .ok (o.skeleton names,
          { names := o.namesAfter names, conditions := o.groups names, loops := o.loops names }) ∧
      (∀ kind, (o.opened names).filter (·.kind = kind) =
        (List.range ((o.opened names).countP (·.kind = kind))).map fun n =>
          ⟨kind, Names.nameOf names.seed kind n⟩) ∧
      (recordMarkers (o.groups names) (o.loops names)).Perm (o.opened names) := by
  intro names
  refine ⟨?_, fun kind => ?_, records_outline o names⟩
  · rw [compileFrom_outline path hgap ho]
    simp [Outline.findings, names]
  · have hnumbers := (numbers_outline o names).eq kind
    have hzero : names.given kind = 0 := by
      cases path <;> cases kind <;> rfl
    rw [hzero, List.Ico.zero_bot] at hnumbers
    have hcount := congrArg List.length hnumbers
    rw [List.length_map, List.length_range, ← List.countP_eq_length_filter] at hcount
    rw [hnumbers, hcount]

/-- A loop with a group of three branches in it, the first of which holds a group again. -/
theorem compileFrom_source_nested :
    let inner : Outline := .directive [] (.group "y".toList (.text "Y".toList) .done) (.text [])
    let body : Outline := .directive "<b>".toList (.group "f(x)".toList inner
      (.elseIf "z".toList (.text "Z".toList) (.otherwise (.text "{w}".toList)))) (.text "</b>".toList)
    let o : Outline := .directive " ".toList (.loop "xs".toList "x".toList body) (.text "!".toList)
    let names := Names.ofPath none
    o.WellFormed ∧
      o.source [' '] = (" {@loop xs as x}<b>{@if (f(x))}{@if (y)}Y{/if}{@elseif (z)}Z{@else}{w}{/if}</b>" ++
        "{/loop}!").toList ∧
      o.opened names = [⟨.loop, "page_loop_0"⟩, ⟨.condition, "page_if_0"⟩, ⟨.condition, "page_if_1"⟩] ∧
      compileFrom ((o.source [' ']).length + 1) 0 (o.source [' ']) { names } =
        .ok (" <!-- loop:page_loop_0 -->!".toList,
          { names := o.namesAfter names, conditions := o.groups names, loops := o.loops names }) := by
  intro inner body o names
  have hbare : ∀ cs ∈ ["<b>".toList, [], "Y".toList, "Z".toList, "{w}".toList, "</b>".toList,
      " ".toList, "!".toList], IsBare cs := by
    unfold IsBare
    decide
  have hy : IsTest "y".toList :=
    ⟨by decide, by decide, by simp, .char (by decide) (by decide) .nil⟩
  have hz : IsTest "z".toList :=
    ⟨by decide, by decide, by simp, .char (by decide) (by decide) .nil⟩
  have hcall : IsTest "f(x)".toList :=
    ⟨by decide, by decide, by simp, .char (by decide) (by decide)
      (.parens (.char (by decide) (by decide) .nil) .nil)⟩
  have harray : IsArray "xs".toList := ⟨by decide, by decide, by simp⟩
  have hbody : body.WellFormed :=
    ⟨hbare _ (by decide),
      ⟨hcall, ⟨hbare _ (by decide), ⟨hy, hbare _ (by decide), trivial⟩, hbare _ (by decide)⟩,
        hz, hbare _ (by decide), hbare _ (by decide)⟩,
      hbare _ (by decide)⟩
  have ho : o.WellFormed :=
    ⟨hbare _ (by decide), ⟨harray, by decide, hbody⟩, hbare _ (by decide)⟩
  refine ⟨ho, by cbv, by cbv, ?_⟩
  have hskeleton : o.skeleton names = " <!-- loop:page_loop_0 -->!".toList := by decide
  rw [← hskeleton]
  exact (compileFrom_source none [' '] (List.all_eq_true.mp (by decide)) o ho).1

end LiveMarkup
