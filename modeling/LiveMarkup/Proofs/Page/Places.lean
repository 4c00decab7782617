import LiveMarkup.Proofs.Decimal.WholeNumbers
import LiveMarkup.Proofs.Expr.NamedItems
import LiveMarkup.Proofs.Page.Contents
import LiveMarkup.Template.Names

/-!
# Names of what is placed

A marker `m` in the content of a loop `l` is called `m@l[i]` at the item `i`.  In such a name every
`@` is closed by a bracket (`WellBracketed`), and so the name tells what was placed, in which loop and at
which item (`nameAt_ofLoop_injective`).  The names that are given to the groups and loops of a template
are well bracketed (`WellBracketed.nameOf`), and so are those of all loops that come to be recorded when
contents are placed (`placedKinds_closed`, by which `Records.Within.body` applies).
-/

namespace LiveMarkup

variable {cs x x' place place' : List Char} {i i' : Nat}

/-- Every `@` is closed by a bracket after it. -/
structure WellBracketed (cs : List Char) : Prop where
  total : cs.count ']' = cs.count '@'
  start : ∀ n, (cs.take n).count ']' ≤ (cs.take n).count '@'

/-- The name of something at an item of a loop. -/
def placedName (x place : List Char) (i : Nat) : List Char :=
  x ++ '@' :: (place ++ bracketed i)

theorem notMem_numeral {c : Char} (hc : c.isDigit = false) (n : Nat) : c ∉ Decimal.numeral n := fun h => by
  rw [isDigit_of_mem_numeral h] at hc
  cases hc

/-! ## Names that are well bracketed -/

namespace WellBracketed

theorem of_notMem (hopen : '@' ∉ cs) (hclose : ']' ∉ cs) : WellBracketed cs where
  total := by rw [List.count_eq_zero_of_not_mem hopen, List.count_eq_zero_of_not_mem hclose]
  start n := by
    rw [List.count_eq_zero_of_not_mem fun h => hclose (List.mem_of_mem_take h)]
    exact Nat.zero_le _

/-- The names of groups and loops are well bracketed. -/
theorem nameOf {seed : String} (hopen : '@' ∉ seed.toList) (hclose : ']' ∉ seed.toList)
    (kind : DirectiveKind) (n : Nat) : WellBracketed (Names.nameOf seed kind n).toList := by
  have hnumeral := @notMem_numeral
  refine of_notMem ?_ ?_ <;> cases kind <;>
    simp [Names.nameOf, DirectiveKind.keyword, hopen, hclose, hnumeral]

theorem placedName (hx : WellBracketed x) (hp : WellBracketed place) (i : Nat) :
    WellBracketed (placedName x place i) := by
  have hopen : (bracketed i).count '@' = 0 :=
    List.count_eq_zero_of_not_mem (by simp [bracketed, notMem_numeral])
  have hclose : (bracketed i).count ']' = 1 := by
    simp [bracketed, List.count_eq_zero_of_not_mem, notMem_numeral]
  refine ⟨?_, fun n => ?_⟩
  · simp [LiveMarkup.placedName, hx.total, hp.total, hopen, hclose]
  · have hstart := hx.start n
    rw [LiveMarkup.placedName, List.take_append, List.count_append, List.count_append]
    rcases n - x.length with _ | k
    · simpa using hstart
    · have hinner := hp.start k
      have hbracket := (List.take_sublist (k - place.length) (bracketed i)).count_le ']'
      rw [hclose] at hbracket
      rw [List.take_succ_cons, List.take_append]
      simp
      omega

end WellBracketed

/-! ## What a name tells -/

/-- What stands between two places to cut would close one bracket more than it opens. -/
theorem eq_nil_of_append_at {t : List Char} (hx : WellBracketed x) (hx' : WellBracketed (x ++ t))
    (hp : WellBracketed place) (h : '@' :: place = t ++ '@' :: place') : t = [] := by
  rcases t with _ | ⟨c, t⟩
  · rfl
  · rw [List.cons_append, List.cons.injEq] at h
    obtain ⟨rfl, rfl⟩ := h
    have htotal := hx'.total
    have hstart := hp.start t.length
    rw [List.take_left] at hstart
    rw [List.count_append, List.count_append, hx.total] at htotal
    simp at htotal
    omega

/-- A name is cut at the `@` that its last bracket closes. -/
theorem eq_of_append_at (hx : WellBracketed x) (hx' : WellBracketed x') (hp : WellBracketed place)
    (hp' : WellBracketed place') (h : x ++ '@' :: place = x' ++ '@' :: place') :
    x = x' ∧ place = place' := by
  rcases List.append_eq_append_iff.mp h with ⟨t, rfl, ht⟩ | ⟨t, rfl, ht⟩
  · obtain rfl := eq_nil_of_append_at hx hx' hp ht
    exact ⟨(List.append_nil x).symm, (List.cons.inj ht).2⟩
  · obtain rfl := eq_nil_of_append_at hx' hx hp' ht
    exact ⟨List.append_nil x', (List.cons.inj ht).2.symm⟩

theorem placedName_injective (hx : WellBracketed x) (hx' : WellBracketed x') (hp : WellBracketed place)
    (hp' : WellBracketed place') (h : placedName x place i = placedName x' place' i') :
    x = x' ∧ place = place' ∧ i = i' := by
  have hcut : ∀ (x place : List Char) (i : Nat), placedName x place i =
      (x ++ '@' :: place ++ '[' :: Decimal.numeral i) ++ [']'] := fun x place i => by
    simp [placedName, bracketed]
  rw [hcut, hcut, List.append_cancel_right_eq] at h
  have hname : x ++ '@' :: place = x' ++ '@' :: place' := by
    rcases List.append_eq_append_iff.mp h with ⟨t, ht, hi⟩ | ⟨t, ht, hi⟩
    · rw [ht, eq_nil_of_last (notMem_numeral rfl i) hi, List.append_nil]
    · rw [ht, eq_nil_of_last (notMem_numeral rfl i') hi, List.append_nil]
  rw [hname, List.append_cancel_left_eq, List.cons.injEq] at h
  obtain ⟨rfl, rfl⟩ := eq_of_append_at hx hx' hp hp' hname
  exact ⟨rfl, rfl, Decimal.numeral_injective h.2⟩

/-! ## Records -/

variable {name name' : String} {p : Placement} {l l' : LoopDefinition} {r : Records}

theorem toList_nameAt {place : List Char} (h : p.place.toList = place ++ bracketed i) (name : String) :
    (p.nameAt name).toList = placedName name.toList place i := by
  simp [Placement.nameAt, placedName, h]

theorem toList_place_ofLoop (l : LoopDefinition) (i : Nat) :
    (Placement.ofLoop l i).place.toList = l.name.toList ++ bracketed i := by
  simp [Placement.ofLoop]

/-- What is placed at an item of a loop goes by a name of its own. -/
theorem nameAt_ofLoop_injective (hname : WellBracketed name.toList) (hname' : WellBracketed name'.toList)
    (hl : WellBracketed l.name.toList) (hl' : WellBracketed l'.name.toList)
    (h : (Placement.ofLoop l i).nameAt name = (Placement.ofLoop l' i').nameAt name') :
    name = name' ∧ l.name = l'.name ∧ i = i' := by
  have h := congrArg String.toList h
  rw [toList_nameAt (toList_place_ofLoop l i), toList_nameAt (toList_place_ofLoop l' i')] at h
  obtain ⟨hname, hloop, hi⟩ := placedName_injective hname hname' hl hl' h
  exact ⟨String.toList_inj.mp hname, String.toList_inj.mp hloop, hi⟩

/-- Loops with well bracketed names, and placements in them. -/
def placedKinds : Kinds where
  content _ := True
  loop l := WellBracketed l.name.toList
  place p := ∃ place i, WellBracketed place ∧ p.place.toList = place ++ bracketed i

theorem placedKinds_closed : placedKinds.Closed where
  content _ := trivial
  item {l} i hl := ⟨l.name.toList, i, hl, toList_place_ofLoop l i⟩
  inside {p q l} hp _ hq := by
    unfold Placement.inside? at hq
    split at hq <;> cases hq
    exact hp
  markup _ _ _ _ _ _ := trivial
  loop {p l html} hp hl _ := by
    obtain ⟨place, i, hplace, hp⟩ := hp
    change WellBracketed (p.nameAt l.name).toList
    rw [toList_nameAt hp]
    exact hl.placedName hplace i

/-- The loops that are recorded go by different names in the contents of loops that are recorded. -/
theorem Records.Within.nameAt_injective (h : r.Within placedKinds) {m m' : LoopDefinition}
    (hname : r.loop? name = some m) (hname' : r.loop? name' = some m') (hl : r.loop? l.name = some l)
    (hl' : r.loop? l'.name = some l')
    (heq : (Placement.ofLoop l i).nameAt name = (Placement.ofLoop l' i').nameAt name') :
    name = name' ∧ l = l' ∧ i = i' := by
  have hnames : ∀ {n : String} {m : LoopDefinition}, r.loop? n = some m →
      WellBracketed n.toList := fun hm => by
    obtain ⟨hloop, rfl⟩ := h.loops _ _ hm
    exact hloop
  obtain ⟨hsame, hloop, hi⟩ := nameAt_ofLoop_injective (hnames hname) (hnames hname')
    (hnames hl) (hnames hl') heq
  rw [hloop, hl'] at hl
  exact ⟨hsame, (Option.some.inj hl).symm, hi⟩

end LiveMarkup
