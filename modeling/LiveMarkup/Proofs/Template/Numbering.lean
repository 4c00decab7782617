import Mathlib
import LiveMarkup.Proofs.Markup.Comments
import LiveMarkup.Proofs.Template.Outline

/-!
# Numbers of directives

The names that a compilation gives to directives of a kind differ (`nameOf_injective`).  The directives of a tree, in the order in which they open, carry the numbers that follow those given
out before, one row of numbers for each kind (`numbers_outline`).  The records tell of the same
directives in another order (`records_outline`).
-/

namespace LiveMarkup

variable {seed : String} {kind : DirectiveKind} {n m : Nat}

/-! ## Names -/

theorem mem_toDigitsCore {b : Nat} : ∀ {fuel n : Nat} {ds : List Char} {c : Char}, 0 < b →
    c ∈ Nat.toDigitsCore b fuel n ds → c ∈ ds ∨ ∃ k < b, c = Nat.digitChar k
  | 0, _, _, _, _, h => .inl h
  | fuel + 1, n, ds, c, hb, h => by
    rw [Nat.toDigitsCore] at h
    have hdigit : c ∈ (n % b).digitChar :: ds → c ∈ ds ∨ ∃ k < b, c = Nat.digitChar k := fun h =>
      (List.mem_cons.mp h).symm.imp_right fun hc => ⟨n % b, Nat.mod_lt n hb, hc⟩
    split at h
    · exact hdigit h
    · rcases mem_toDigitsCore hb h with h | h
      exacts [hdigit h, .inr h]

theorem isMark_digitChar : ∀ k < 16, isMark (Nat.digitChar k) = true := by decide

theorem isMark_toDigits {b : Nat} (hb : 0 < b) (hb' : b ≤ 16) {c : Char} (h : c ∈ Nat.toDigits b n) :
    isMark c = true := by
  rcases mem_toDigitsCore hb h with h | ⟨k, hk, rfl⟩
  · cases h
  · exact isMark_digitChar k (hk.trans_le hb')

theorem nameOf_toList : (Names.nameOf seed kind n).toList =
    seed.toList ++ ('_' :: (kind.keyword.toList ++ ('_' :: Nat.toDigits 10 n))) := by
  simp [Names.nameOf, Decimal.numeral]

theorem nameOf_injective (h : Names.nameOf seed kind n = Names.nameOf seed kind m) : n = m := by
  have h := congrArg String.toList h
  rw [nameOf_toList, nameOf_toList] at h
  simp only [List.append_cancel_left_eq, List.cons.injEq, true_and] at h
  rw [← Nat.ofDigitChars_toDigits (b := 10) (n := n) (by decide) (by decide), h,
    Nat.ofDigitChars_toDigits (by decide) (by decide)]

theorem isMark_seed (path : Option String) :
    ∀ c ∈ (Names.ofPath path).seed.toList, isMark c = true := by
  rcases path with _ | p
  · exact List.all_eq_true.mp (by decide : Names.anonymous.toList.all isMark = true)
  · intro c hc
    rw [Names.ofPath, String.toList_ofList] at hc
    exact isMark_toDigits (by decide) (by decide) hc

theorem isMark_keyword (kind : DirectiveKind) : ∀ c ∈ kind.keyword.toList, isMark c = true :=
  List.all_eq_true.mp (by cases kind <;> decide : kind.keyword.toList.all isMark = true)

theorem isMark_nameOf (hseed : ∀ c ∈ seed.toList, isMark c = true) (kind : DirectiveKind) (n : Nat) :
    ∀ c ∈ (Names.nameOf seed kind n).toList, isMark c = true := by
  intro c hc
  rw [nameOf_toList] at hc
  simp only [List.mem_append, List.mem_cons] at hc
  rcases hc with hc | rfl | hc | rfl | hc
  · exact hseed c hc
  · decide
  · exact isMark_keyword kind c hc
  · decide
  · exact isMark_toDigits (by decide) (by decide) hc

/-! ## Numbers -/

/-- The number that the next directive of a kind gets. -/
def Names.given (names : Names) : DirectiveKind → Nat
  | .condition => names.conditions
  | .loop => names.loops

theorem Names.next_fst (names : Names) (kind : DirectiveKind) :
    (names.next kind).1 = Names.nameOf names.seed kind (names.given kind) := by
  cases kind <;> rfl

theorem Names.next_seed (names : Names) (kind : DirectiveKind) :
    (names.next kind).2.seed = names.seed := by
  cases kind <;> rfl

theorem Names.next_given (names : Names) (kind kind' : DirectiveKind) :
    (names.next kind).2.given kind' = names.given kind' + if kind = kind' then 1 else 0 := by
  cases kind <;> cases kind' <;> rfl

mutual

/-- The markers of the directives in a template, in the order in which they open. -/
def Outline.opened (names : Names) : Outline → List Marker
  | .text _ => []
  | .directive _ d rest => d.opened names ++ rest.opened (d.namesAfter names)

/-- The marker of a directive, and then those of the directives in it. -/
def Directive.opened (names : Names) : Directive → List Marker
  | .group _ body more =>
    let inner := (names.next .condition).2
    ⟨.condition, (names.next .condition).1⟩ ::
      (body.opened inner ++ more.opened (body.namesAfter inner))
  | .loop _ _ body => ⟨.loop, (names.next .loop).1⟩ :: body.opened (names.next .loop).2

/-- The markers of the directives in branches. -/
def Branches.opened (names : Names) : Branches → List Marker
  | .done => []
  | .otherwise body => body.opened names
  | .elseIf _ body more => body.opened names ++ more.opened (body.namesAfter names)

end

/-- From one state of the names to another, markers are numbered in order, kind by kind. -/
structure Numbers (names names' : Names) (ms : List Marker) : Prop where
  seed : names'.seed = names.seed
  le : ∀ kind, names.given kind ≤ names'.given kind
  eq : ∀ kind, ms.filter (·.kind = kind) =
    (List.Ico (names.given kind) (names'.given kind)).map fun n => ⟨kind, Names.nameOf names.seed kind n⟩

namespace Numbers

variable {names names' names'' : Names} {ms ms' : List Marker}

theorem nil (names : Names) : Numbers names names [] where
  seed := rfl
  le _ := le_rfl
  eq _ := by rw [List.Ico.self_empty]; rfl

theorem next (names : Names) (kind : DirectiveKind) :
    Numbers names (names.next kind).2 [⟨kind, (names.next kind).1⟩] where
  seed := names.next_seed kind
  le kind' := by rw [names.next_given]; omega
  eq kind' := by
    rw [names.next_given, names.next_fst]
    by_cases h : kind = kind'
    · simp [h]
    · simp [h]

theorem append (h : Numbers names names' ms) (h' : Numbers names' names'' ms') :
    Numbers names names'' (ms ++ ms') where
  seed := h'.seed.trans h.seed
  le kind := (h.le kind).trans (h'.le kind)
  eq kind := by
    rw [List.filter_append, h.eq, h'.eq, h.seed, ← List.map_append,
      List.Ico.append_consecutive (h.le kind) (h'.le kind)]

end Numbers

mutual

theorem numbers_outline : ∀ (o : Outline) (names : Names),
    Numbers names (o.namesAfter names) (o.opened names)
  | .text _, names => by
    rw [Outline.namesAfter, Outline.opened]
    exact .nil names
  | .directive _ d rest, names => by
    rw [Outline.namesAfter, Outline.opened]
    exact (numbers_directive d names).append (numbers_outline rest _)

theorem numbers_directive : ∀ (d : Directive) (names : Names),
    Numbers names (d.namesAfter names) (d.opened names)
  | .group _ body more, names => by
    rw [Directive.namesAfter, Directive.opened]
    exact (Numbers.next names .condition).append
      ((numbers_outline body _).append (numbers_branches more _))
  | .loop _ _ body, names => by
    rw [Directive.namesAfter, Directive.opened]
    exact (Numbers.next names .loop).append (numbers_outline body _)

theorem numbers_branches : ∀ (b : Branches) (names : Names),
    Numbers names (b.namesAfter names) (b.opened names)
  | .done, names => by
    rw [Branches.namesAfter, Branches.opened]
    exact .nil names
  | .otherwise body, names => by
    rw [Branches.namesAfter, Branches.opened]
    exact numbers_outline body names
  | .elseIf _ body more, names => by
    rw [Branches.namesAfter, Branches.opened]
    exact (numbers_outline body names).append (numbers_branches more _)

end

/-- The markers that records are found by. -/
def recordMarkers (groups : List ConditionGroup) (loops : List LoopDefinition) : List Marker :=
  groups.map (fun g => ⟨.condition, g.name⟩) ++ loops.map fun l => ⟨.loop, l.name⟩

theorem count_recordMarkers_append (m : Marker) (gs gs' : List ConditionGroup)
    (ls ls' : List LoopDefinition) : (recordMarkers (gs ++ gs') (ls ++ ls')).count m =
      (recordMarkers gs ls).count m + (recordMarkers gs' ls').count m := by
  simp only [recordMarkers, List.map_append, List.count_append]
  omega

/-- A directive is numbered before those in it and those after it, and its record stands between
theirs. -/
theorem perm_recordMarkers {m : Marker} {ms₁ ms₂ : List Marker} {gs₁ gs gs₂ : List ConditionGroup}
    {ls₁ ls ls₂ : List LoopDefinition} (h₁ : (recordMarkers gs₁ ls₁).Perm ms₁)
    (h : recordMarkers gs ls = [m]) (h₂ : (recordMarkers gs₂ ls₂).Perm ms₂) :
    (recordMarkers (gs₁ ++ gs ++ gs₂) (ls₁ ++ ls ++ ls₂)).Perm (m :: (ms₁ ++ ms₂)) := by
  refine List.perm_iff_count.mpr fun m' => ?_
  rw [count_recordMarkers_append, count_recordMarkers_append, h₁.count_eq, h₂.count_eq, h,
    List.count_cons, List.count_cons, List.count_append, List.count_nil]
  omega

mutual

theorem count_records_outline (m : Marker) : ∀ (o : Outline) (names : Names),
    (recordMarkers (o.groups names) (o.loops names)).count m = (o.opened names).count m
  | .text _, names => by simp [Outline.groups, Outline.loops, Outline.opened, recordMarkers]
  | .directive _ d rest, names => by
    rw [Outline.groups, Outline.loops, Outline.opened, count_recordMarkers_append, List.count_append,
      count_records_directive m d, count_records_outline m rest]

theorem count_records_directive (m : Marker) : ∀ (d : Directive) (names : Names),
    (recordMarkers (d.groups names) (d.loops names)).count m = (d.opened names).count m
  | .group _ body more, names => by
    have hbody := count_records_outline m body (names.next .condition).2
    have hmore := count_records_branches m more (body.namesAfter (names.next .condition).2)
    have hinside := count_recordMarkers_append m (body.groups (names.next .condition).2)
      (more.groups (body.namesAfter (names.next .condition).2)) (body.loops (names.next .condition).2)
      (more.loops (body.namesAfter (names.next .condition).2))
    simp only [recordMarkers, List.map_append, List.count_append, List.map_cons, List.map_nil,
      List.count_cons, List.count_nil, Directive.groups, Directive.loops, Directive.opened] at *
    omega
  | .loop _ _ body, names => by
    have hbody := count_records_outline m body (names.next .loop).2
    simp only [recordMarkers, List.map_append, List.count_append, List.map_cons, List.map_nil,
      List.count_cons, List.count_nil, Directive.groups, Directive.loops, Directive.opened] at *
    omega

theorem count_records_branches (m : Marker) : ∀ (b : Branches) (names : Names),
    (recordMarkers (b.groups names) (b.loops names)).count m = (b.opened names).count m
  | .done, names => by simp [Branches.groups, Branches.loops, Branches.opened, recordMarkers]
  | .otherwise body, names => by
    rw [Branches.groups, Branches.loops, Branches.opened, count_records_outline m body]
  | .elseIf _ body more, names => by
    rw [Branches.groups, Branches.loops, Branches.opened, count_recordMarkers_append, List.count_append,
      count_records_outline m body, count_records_branches m more]

end

/-- The records are those of the directives that open, in another order. -/
theorem records_outline (o : Outline) (names : Names) :
    (recordMarkers (o.groups names) (o.loops names)).Perm (o.opened names) :=
  List.perm_iff_count.mpr fun m => count_records_outline m o names

end LiveMarkup
