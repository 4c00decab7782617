import Mathlib
import LiveMarkup.Page.Binding

/-!
# Bindings applied to elements

Elements are alike if they differ in the order of their attributes at most (`Element.Like`).  Up to
that the order in which bindings are applied is without effect, and of two values for one target the
later counts (`Element.applyAll_perm`, `Element.applyAll_setValueIn`).  To apply the same values again
changes nothing, not even the order (`Element.applyAll_twice`).
-/

namespace LiveMarkup

namespace Element

/-- Elements differ in the order of their attributes at most. -/
structure Like (e e' : Element) : Prop where
  tag : e.tag = e'.tag
  attributes : e.attributes.Perm e'.attributes
  value : e.value = e'.value
  flags : e.flags = e'.flags

/-- No attribute stands twice. -/
def Distinct (e : Element) : Prop :=
  (e.attributes.map (·.1)).Nodup

theorem Like.refl (e : Element) : Like e e :=
  ⟨rfl, .refl _, rfl, rfl⟩

theorem Like.symm {e e' : Element} (h : Like e e') : Like e' e :=
  ⟨h.tag.symm, h.attributes.symm, h.value.symm, h.flags.symm⟩

theorem Like.trans {e e' e'' : Element} (h : Like e e') (h' : Like e' e'') : Like e e'' :=
  ⟨h.tag.trans h'.tag, h.attributes.trans h'.attributes, h.value.trans h'.value,
    h.flags.trans h'.flags⟩

theorem Like.distinct {e e' : Element} (h : Like e e') (hd : e.Distinct) : e'.Distinct :=
  (h.attributes.map _).nodup_iff.mp hd

/-! ## Keys in lists of pairs -/

section

variable {α : Type} {k k' : String} {v v' : α} {xs ys : List (String × α)}

/-- Pairs without those with a given key. -/
def without (k : String) (xs : List (String × α)) : List (String × α) :=
  xs.filter fun x => x.1 ≠ k

theorem without_eq_self (h : k ∉ xs.map (·.1)) : without k xs = xs :=
  List.filter_eq_self.mpr fun x hx => by
    simpa using fun heq : x.1 = k => h (heq ▸ List.mem_map_of_mem hx)

theorem not_mem_without : k ∉ (without k xs).map (·.1) := by
  intro h
  obtain ⟨x, hx, heq⟩ := List.mem_map.mp h
  simpa [heq] using (List.mem_filter.mp hx).2

theorem without_comm : without k (without k' xs) = without k' (without k xs) := by
  unfold without
  rw [List.filter_filter, List.filter_filter]
  exact List.filter_congr fun x _ => Bool.and_comm ..

theorem without_cons_self : without k ((k, v) :: xs) = without k xs :=
  List.filter_cons_of_neg (by simp)

theorem without_cons_of_ne (h : k' ≠ k) : without k ((k', v) :: xs) = (k', v) :: without k xs :=
  List.filter_cons_of_pos (by simpa using h)

theorem without_perm (h : xs.Perm ys) : (without k xs).Perm (without k ys) :=
  h.filter _

theorem mem_iff_lookup (hnd : (xs.map (·.1)).Nodup) : (k, v) ∈ xs ↔ xs.lookup k = some v := by
  induction xs with
  | nil => simp
  | cons x xs ih =>
    obtain ⟨k₀, w⟩ := x
    simp only [List.map_cons, List.nodup_cons] at hnd
    by_cases hk : k = k₀
    · subst hk
      simp only [List.mem_cons, Prod.mk.injEq, true_and, List.lookup_cons_self, Option.some.injEq]
      refine ⟨fun h => ?_, fun h => .inl h.symm⟩
      rcases h with h | h
      · exact h.symm
      · exact absurd (List.mem_map_of_mem (f := (·.1)) h) hnd.1
    · have : (k == k₀) = false := beq_eq_false_iff_ne.mpr hk
      simp [List.lookup, this, hk, ih hnd.2]

theorem lookup_perm (h : xs.Perm ys) (hnd : (xs.map (·.1)).Nodup) : xs.lookup k = ys.lookup k := by
  refine Option.ext fun v => ?_
  rw [← mem_iff_lookup hnd, ← mem_iff_lookup ((h.map _).nodup_iff.mp hnd), h.mem_iff]

theorem lookup_without (h : k' ≠ k) : (without k xs).lookup k' = xs.lookup k' := by
  induction xs with
  | nil => rfl
  | cons x xs ih =>
    obtain ⟨k₀, w⟩ := x
    by_cases hk : k₀ = k
    · subst hk
      rw [without_cons_self, ih, List.lookup_cons, beq_eq_false_iff_ne.mpr h]
    · rw [without_cons_of_ne hk, List.lookup_cons, List.lookup_cons, ih]

theorem nodup_without (h : (xs.map (·.1)).Nodup) : ((without k xs).map (·.1)).Nodup :=
  h.sublist ((List.filter_sublist (l := xs)).map _)

end

section

variable {k k' v v' : String} {xs ys : List (String × String)}

theorem removeIn_eq (h : (xs.map (·.1)).Nodup) : removeIn k xs = without k xs := by
  induction xs with
  | nil => rfl
  | cons x xs ih =>
    obtain ⟨k₀, v₀⟩ := x
    simp only [List.map_cons, List.nodup_cons] at h
    rw [removeIn]
    by_cases hk : k₀ = k
    · subst hk
      rw [if_pos rfl, without_cons_self, without_eq_self h.1]
    · rw [if_neg hk, without_cons_of_ne hk, ih h.2]

theorem setIn_perm (h : (xs.map (·.1)).Nodup) : (setIn k v xs).Perm ((k, v) :: without k xs) := by
  induction xs with
  | nil => exact .refl _
  | cons x xs ih =>
    obtain ⟨k₀, v₀⟩ := x
    simp only [List.map_cons, List.nodup_cons] at h
    rw [setIn]
    by_cases hk : k₀ = k
    · subst hk
      rw [if_pos rfl, without_cons_self, without_eq_self h.1]
    · rw [if_neg hk, without_cons_of_ne hk]
      exact (List.Perm.cons _ (ih h.2)).trans (.swap ..)

end

/-! ## One binding -/

/-- What a binding does to the attribute that it is named for: a value is given to it, or it is
removed, or it stays. -/
def bindingEffect (e : Element) (t : String) (v : Value) : Option (Option String) :=
  if t ∈ flagAttributes then some (if v.isTruthy then some "" else none)
  else if t = "value" && e.kind.hasValue then none
  else some (some v.text)

/-- Attributes after an effect, in an order that does not depend on theirs. -/
def affect (t : String) : Option (Option String) → List (String × String) → List (String × String)
  | none, xs => xs
  | some x, xs => (x.map (t, ·)).toList ++ without t xs

/-- The value of an element after a binding. -/
def bindingValue? (e : Element) (t : String) (v : Value) : Option String :=
  if t ∈ flagAttributes then e.value
  else if t = "value" && e.kind.hasValue then some v.text
  else e.value

/-- The flags of an element after a binding. -/
def bindingFlags (e : Element) (t : String) (v : Value) : List (String × Bool) :=
  if t ∈ flagAttributes ∧ e.kind.hasFlag t then insertByKey t v.isTruthy e.flags else e.flags

variable {e e' : Element} {t t' : String} {v v' : Value} {vs ws : List (String × Value)}

theorem applyBinding_tag : (e.applyBinding t v).tag = e.tag := by
  unfold applyBinding
  split_ifs <;> rfl

theorem applyBinding_attributes (h : e.Distinct) :
    (e.applyBinding t v).attributes.Perm (affect t (e.bindingEffect t v) e.attributes) := by
  have hset : ∀ x, (setIn t x e.attributes).Perm ((t, x) :: without t e.attributes) := fun x =>
    setIn_perm h
  have hremove : removeIn t e.attributes = without t e.attributes := removeIn_eq h
  unfold applyBinding bindingEffect
  by_cases hflag : t ∈ flagAttributes
  · rw [if_pos hflag, if_pos hflag]
    by_cases hv : v.isTruthy = true
    · simp only [hv, if_true]
      split <;> exact hset ""
    · simp only [hv, if_false, Bool.false_eq_true]
      split <;> exact .of_eq hremove
  · rw [if_neg hflag, if_neg hflag]
    split
    · exact .refl _
    · exact hset _

theorem applyBinding_value : (e.applyBinding t v).value = e.bindingValue? t v := by
  unfold applyBinding bindingValue?
  split_ifs <;> rfl

theorem applyBinding_flags : (e.applyBinding t v).flags = e.bindingFlags t v := by
  unfold applyBinding bindingFlags
  by_cases hflag : t ∈ flagAttributes
  · simp only [hflag, if_true, true_and]
    by_cases hk : e.kind.hasFlag t = true
    · rw [if_pos hk, if_pos hk]
      cases v.isTruthy <;> rfl
    · rw [if_neg hk, if_neg hk]
      cases v.isTruthy <;> rfl
  · simp only [hflag, if_false, false_and]
    split <;> rfl

/-! ## Bindings one after the other -/

theorem kind_congr (h : e.tag = e'.tag) : e.kind = e'.kind :=
  congrArg ElementKind.ofTag h

theorem bindingEffect_congr (h : e.tag = e'.tag) : e.bindingEffect t v = e'.bindingEffect t v := by
  rw [bindingEffect, bindingEffect, kind_congr h]

theorem bindingEffect_eq_none_iff :
    e.bindingEffect t v = none ↔ t ∉ flagAttributes ∧ (t = "value" && e.kind.hasValue) = true := by
  unfold bindingEffect
  by_cases hflag : t ∈ flagAttributes
  · simp [hflag]
  · by_cases hval : (t = "value" && e.kind.hasValue) = true <;> simp [hflag, hval]

section

variable {a b : Option (Option String)} {xs ys : List (String × String)}

theorem affect_perm (h : xs.Perm ys) : (affect t a xs).Perm (affect t a ys) := by
  rcases a with _ | x
  · exact h
  · exact (without_perm h).append_left _

theorem nodup_affect (h : (xs.map (·.1)).Nodup) : ((affect t a xs).map (·.1)).Nodup := by
  rcases a with _ | _ | x
  · exact h
  · exact nodup_without h
  · exact List.nodup_cons.mpr ⟨not_mem_without, nodup_without h⟩

theorem affect_twice (h : a = none → b = none) :
    affect t a (affect t b xs) = affect t a xs := by
  have hself : without t (without t xs) = without t xs := without_eq_self not_mem_without
  rcases a with _ | x
  · rw [h rfl]
    rfl
  · rcases b with _ | _ | y
    · rfl
    · exact congrArg ((x.map (t, ·)).toList ++ ·) hself
    · exact congrArg ((x.map (t, ·)).toList ++ ·) (without_cons_self.trans hself)

theorem affect_comm (h : t ≠ t') : (affect t a (affect t' b xs)).Perm (affect t' b (affect t a xs)) := by
  rcases a with _ | _ | x <;> rcases b with _ | _ | y <;>
    simp only [affect, Option.map_none, Option.map_some, Option.toList_none, Option.toList_some,
      List.nil_append, List.cons_append, List.Perm.refl]
  · rw [without_comm]
  · rw [without_cons_of_ne h.symm, without_comm]
  · rw [without_cons_of_ne h, without_comm]
  · rw [without_cons_of_ne h, without_cons_of_ne h.symm, without_comm]
    exact .swap ..

end

section

variable {α : Type} {k k' : String} {x y : α} {xs : List (String × α)}

theorem insertByKey_twice : insertByKey k x (insertByKey k y xs) = insertByKey k x xs := by
  induction xs with
  | nil => grind [insertByKey]
  | cons z xs ih => grind [insertByKey]

theorem insertByKey_comm (h : k ≠ k') :
    insertByKey k x (insertByKey k' y xs) = insertByKey k' y (insertByKey k x xs) := by
  induction xs with
  | nil => grind [insertByKey]
  | cons z xs ih => grind [insertByKey]

end

theorem bindingFlags_congr (ht : e.tag = e'.tag) (hf : e.flags = e'.flags) :
    e.bindingFlags t v = e'.bindingFlags t v := by
  rw [bindingFlags, bindingFlags, kind_congr ht, hf]

theorem bindingValue?_congr (ht : e.tag = e'.tag) (hv : e.value = e'.value) :
    e.bindingValue? t v = e'.bindingValue? t v := by
  rw [bindingValue?, bindingValue?, kind_congr ht, hv]

theorem distinct_applyBinding (h : e.Distinct) : (e.applyBinding t v).Distinct :=
  ((applyBinding_attributes h).map _).nodup_iff.mpr (nodup_affect h)

theorem Like.applyBinding (h : Like e e') (hd : e.Distinct) :
    Like (e.applyBinding t v) (e'.applyBinding t v) where
  tag := by rw [applyBinding_tag, applyBinding_tag, h.tag]
  attributes := by
    refine (applyBinding_attributes hd).trans (.trans ?_ (applyBinding_attributes (h.distinct hd)).symm)
    rw [bindingEffect_congr h.tag]
    exact affect_perm h.attributes
  value := by rw [applyBinding_value, applyBinding_value, bindingValue?_congr h.tag h.value]
  flags := by rw [applyBinding_flags, applyBinding_flags, bindingFlags_congr h.tag h.flags]

/-- Of two values for one target the later counts. -/
theorem applyBinding_twice (hd : e.Distinct) :
    Like ((e.applyBinding t v).applyBinding t v') (e.applyBinding t v') where
  tag := by rw [applyBinding_tag, applyBinding_tag, applyBinding_tag]
  attributes := by
    have h1 := applyBinding_attributes (t := t) (v := v') (distinct_applyBinding (t := t) (v := v) hd)
    refine h1.trans (.trans ?_ (applyBinding_attributes hd).symm)
    rw [bindingEffect_congr (applyBinding_tag (e := e))]
    refine (affect_perm (applyBinding_attributes hd)).trans (.of_eq (affect_twice fun h => ?_))
    rw [bindingEffect_eq_none_iff] at h ⊢
    exact h
  value := by
    rw [applyBinding_value, applyBinding_value]
    unfold bindingValue?
    rw [kind_congr (applyBinding_tag (e := e)), applyBinding_value]
    unfold bindingValue?
    split_ifs <;> rfl
  flags := by
    rw [applyBinding_flags, applyBinding_flags]
    unfold bindingFlags
    rw [kind_congr (applyBinding_tag (e := e)), applyBinding_flags]
    unfold bindingFlags
    split_ifs
    · exact insertByKey_twice
    · rfl

/-- Bindings with different targets do not disturb each other. -/
theorem applyBinding_comm (h : t ≠ t') (hd : e.Distinct) :
    Like ((e.applyBinding t v).applyBinding t' v') ((e.applyBinding t' v').applyBinding t v) where
  tag := by simp only [applyBinding_tag]
  attributes := by
    have h1 := applyBinding_attributes (t := t') (v := v') (distinct_applyBinding (t := t) (v := v) hd)
    have h2 := applyBinding_attributes (t := t) (v := v) (distinct_applyBinding (t := t') (v := v') hd)
    rw [bindingEffect_congr (applyBinding_tag (e := e))] at h1 h2
    refine h1.trans (.trans ?_ h2.symm)
    refine (affect_perm (applyBinding_attributes hd)).trans (.trans (affect_comm h.symm) ?_)
    exact (affect_perm (applyBinding_attributes hd)).symm
  value := by
    simp only [applyBinding_value]
    unfold bindingValue?
    simp only [kind_congr (applyBinding_tag (e := e)), applyBinding_value]
    unfold bindingValue?
    split_ifs <;> simp_all
  flags := by
    simp only [applyBinding_flags]
    unfold bindingFlags
    simp only [kind_congr (applyBinding_tag (e := e)), applyBinding_flags]
    unfold bindingFlags
    split_ifs
    · exact insertByKey_comm h.symm
    all_goals rfl

/-! ## Many bindings -/

/-- An element with values applied to targets, one after the other. -/
def applyAll (e : Element) (vs : List (String × Value)) : Element :=
  vs.foldl (fun e (t, v) => e.applyBinding t v) e

/-- Values by target, with one of them set. -/
def setValueIn (t : String) (v : Value) : List (String × Value) → List (String × Value)
  | [] => [(t, v)]
  | (k, w) :: vs => if k = t then (t, v) :: vs else (k, w) :: setValueIn t v vs

theorem applyAll_cons : e.applyAll ((t, v) :: vs) = (e.applyBinding t v).applyAll vs :=
  rfl

theorem distinct_applyAll (h : e.Distinct) : (e.applyAll vs).Distinct := by
  induction vs generalizing e with
  | nil => exact h
  | cons x vs ih => exact ih (distinct_applyBinding h)

theorem Like.applyAll (h : Like e e') (hd : e.Distinct) : Like (e.applyAll vs) (e'.applyAll vs) := by
  induction vs generalizing e e' with
  | nil => exact h
  | cons x vs ih => exact ih (h.applyBinding hd) (distinct_applyBinding hd)

/-- A binding may be applied before others with different targets. -/
theorem applyAll_comm (h : t ∉ vs.map (·.1)) (hd : e.Distinct) :
    Like ((e.applyAll vs).applyBinding t v) ((e.applyBinding t v).applyAll vs) := by
  induction vs generalizing e with
  | nil => exact Like.refl _
  | cons x vs ih =>
    obtain ⟨k, w⟩ := x
    simp only [List.map_cons, List.mem_cons, not_or] at h
    refine (ih h.2 (distinct_applyBinding hd)).trans ?_
    exact (applyBinding_comm (Ne.symm h.1) hd).applyAll
      (distinct_applyBinding (distinct_applyBinding hd))

/-- The order of values for different targets is without effect. -/
theorem applyAll_perm (h : vs.Perm ws) (hnd : (vs.map (·.1)).Nodup) (hd : e.Distinct) :
    Like (e.applyAll vs) (e.applyAll ws) := by
  induction h generalizing e with
  | nil => exact Like.refl _
  | cons x _ ih => exact ih (List.nodup_cons.mp hnd).2 (distinct_applyBinding hd)
  | swap x y l =>
    simp only [List.map_cons, List.nodup_cons, List.mem_cons, not_or] at hnd
    exact (applyBinding_comm hnd.1.1 hd).applyAll (distinct_applyBinding (distinct_applyBinding hd))
  | trans h₁ _ ih₁ ih₂ =>
    exact (ih₁ hnd hd).trans (ih₂ ((h₁.map _).nodup_iff.mp hnd) hd)

/-- A value that is applied last takes the place of the one for its target. -/
theorem applyAll_setValueIn (hnd : (vs.map (·.1)).Nodup) (hd : e.Distinct) :
    Like ((e.applyAll vs).applyBinding t v) (e.applyAll (setValueIn t v vs)) := by
  induction vs generalizing e with
  | nil => exact Like.refl _
  | cons x vs ih =>
    obtain ⟨k, w⟩ := x
    simp only [List.map_cons, List.nodup_cons] at hnd
    rw [setValueIn]
    split
    · rename_i hk
      subst hk
      refine (applyAll_comm hnd.1 (distinct_applyBinding hd)).trans ?_
      exact (applyBinding_twice hd).applyAll (distinct_applyBinding (distinct_applyBinding hd))
    · exact ih hnd.2 (distinct_applyBinding hd)

section

variable {k : String}

theorem map_fst_setValueIn : (setValueIn t v vs).map (·.1) =
    if t ∈ vs.map (·.1) then vs.map (·.1) else vs.map (·.1) ++ [t] := by
  induction vs with
  | nil => rfl
  | cons x vs ih =>
    obtain ⟨k, w⟩ := x
    rw [setValueIn]
    by_cases hk : k = t
    · subst hk
      simp
    · rw [if_neg hk, List.map_cons, ih]
      by_cases ht : t ∈ vs.map (·.1)
      · simp [ht]
      · simp [ht, Ne.symm hk]

theorem lookup_setValueIn :
    (setValueIn t v vs).lookup k = if k = t then some v else vs.lookup k := by
  induction vs with
  | nil => by_cases hk : k = t <;> simp [setValueIn, List.lookup, hk, beq_eq_false_iff_ne.mpr]
  | cons x vs ih =>
    obtain ⟨k₀, w⟩ := x
    rw [setValueIn]
    by_cases h : k₀ = t <;> by_cases hk : k = t <;> by_cases hk₀ : k = k₀ <;>
      simp_all [List.lookup, beq_eq_false_iff_ne.mpr]

end

/-- Values that are applied to an element take the places of those that were applied before. -/
theorem applyAll_applyAll (ws : List (String × Value)) (hnd : (vs.map (·.1)).Nodup) (hd : e.Distinct) :
    ∃ vs', (vs'.map (·.1)).Nodup ∧ Like ((e.applyAll vs).applyAll ws) (e.applyAll vs') ∧
      (∀ t, t ∈ vs'.map (·.1) ↔ t ∈ vs.map (·.1) ∨ t ∈ ws.map (·.1)) ∧
      ((ws.map (·.1)).Nodup → ∀ t, vs'.lookup t = (ws.lookup t).or (vs.lookup t)) := by
  induction ws generalizing vs with
  | nil => exact ⟨vs, hnd, Like.refl _, by simp, fun _ t => by simp⟩
  | cons x ws ih =>
    obtain ⟨k, w⟩ := x
    have hkeys : (setValueIn k w vs).map (·.1) = _ := map_fst_setValueIn
    have hnd' : ((setValueIn k w vs).map (·.1)).Nodup := by
      rw [hkeys]
      split
      · exact hnd
      · rename_i hk
        exact List.nodup_append'.mpr ⟨hnd, List.nodup_singleton k, by simpa using hk⟩
    obtain ⟨vs', hvs', hlike, hmem, hlook⟩ := ih hnd'
    refine ⟨vs', hvs', ?_, fun t => ?_, fun hws t => ?_⟩
    · refine Like.trans ?_ hlike
      exact (applyAll_setValueIn hnd hd).applyAll (distinct_applyBinding (distinct_applyAll hd))
    · rw [hmem, hkeys]
      split
      · rename_i hk
        simp only [List.map_cons, List.mem_cons]
        constructor
        · exact fun h => h.imp_right .inr
        · rintro (h | rfl | h)
          exacts [.inl h, .inl hk, .inr h]
      · simp only [List.map_cons, List.mem_cons, List.mem_append, List.not_mem_nil, or_false]
        tauto
    · simp only [List.map_cons, List.nodup_cons] at hws
      rw [hlook hws.2, lookup_setValueIn]
      by_cases ht : t = k
      · subst ht
        have hnone : ws.lookup t = none := by
          rw [List.lookup_eq_none_iff]
          intro p hp
          simpa using fun h : t = p.1 => hws.1 (h ▸ List.mem_map_of_mem hp)
        simp [hnone]
      · have : (t == k) = false := beq_eq_false_iff_ne.mpr ht
        simp [List.lookup, this, ht]

/-! ## The same bindings again -/

/-- A binding has been applied, so that to apply it again changes nothing. -/
structure Settled (e : Element) (t : String) (v : Value) : Prop where
  effect : ∀ x, e.bindingEffect t v = some x → e.attribute? t = x
  value : e.bindingValue? t v = e.value
  flags : e.bindingFlags t v = e.flags

theorem setIn_eq_self {k x : String} : ∀ {xs : List (String × String)}, xs.lookup k = some x →
    setIn k x xs = xs
  | [], h => by cases h
  | (k', y) :: xs, h => by
    rw [setIn]
    by_cases hk : k' = k
    · subst hk
      rw [List.lookup_cons_self, Option.some.injEq] at h
      rw [if_pos rfl, h]
    · rw [List.lookup_cons, beq_eq_false_iff_ne.mpr (Ne.symm hk)] at h
      rw [if_neg hk, setIn_eq_self h]

theorem removeIn_eq_self {k : String} : ∀ {xs : List (String × String)}, xs.lookup k = none →
    removeIn k xs = xs
  | [], _ => rfl
  | (k', y) :: xs, h => by
    rw [removeIn]
    by_cases hk : k' = k
    · subst hk
      rw [List.lookup_cons_self] at h
      cases h
    · rw [List.lookup_cons, beq_eq_false_iff_ne.mpr (Ne.symm hk)] at h
      rw [if_neg hk, removeIn_eq_self h]

theorem Settled.applyBinding_eq (h : e.Settled t v) : e.applyBinding t v = e := by
  obtain ⟨heffect, hvalue, hflags⟩ := h
  unfold bindingEffect at heffect
  unfold bindingValue? at hvalue
  unfold bindingFlags at hflags
  unfold applyBinding
  by_cases hflag : t ∈ flagAttributes
  · simp only [hflag, if_true, Option.some.injEq, true_and] at heffect hflags ⊢
    have hshown : (if v.isTruthy = true then e.setAttribute t "" else e.removeAttribute t) = e := by
      by_cases hv : v.isTruthy = true
      · rw [if_pos hv, setAttribute, setIn_eq_self (heffect _ (if_pos hv))]
      · rw [if_neg hv, removeAttribute, removeIn_eq_self (heffect _ (if_neg hv))]
    rw [hshown]
    split
    · rename_i hk
      rw [if_pos hk] at hflags
      rw [setFlag, hflags]
    · rfl
  · simp only [hflag, if_false] at heffect hvalue ⊢
    split
    · rename_i hval
      rw [if_pos hval] at hvalue
      rw [setValue, hvalue]
    · rename_i hval
      rw [if_neg hval] at heffect
      rw [setAttribute, setIn_eq_self (heffect _ rfl)]

theorem settled_applyBinding (hd : e.Distinct) : (e.applyBinding t v).Settled t v where
  effect x hx := by
    rw [bindingEffect_congr (applyBinding_tag (e := e))] at hx
    rw [attribute?, lookup_perm (applyBinding_attributes hd) (distinct_applyBinding hd), hx]
    rcases x with _ | x
    · exact List.lookup_eq_none_iff.mpr fun p hp => by
        have hne : t ≠ p.1 := fun heq => not_mem_without (heq ▸ List.mem_map_of_mem hp)
        simpa using hne
    · exact List.lookup_cons_self
  value := by
    unfold bindingValue?
    rw [kind_congr (applyBinding_tag (e := e)), applyBinding_value]
    unfold bindingValue?
    split_ifs <;> rfl
  flags := by
    unfold bindingFlags
    rw [kind_congr (applyBinding_tag (e := e)), applyBinding_flags]
    unfold bindingFlags
    split_ifs
    · exact insertByKey_twice
    · rfl

theorem attribute?_applyBinding {name : String} (hd : e.Distinct) (h : name ≠ t) :
    (e.applyBinding t v).attribute? name = e.attribute? name := by
  unfold attribute?
  rw [lookup_perm (applyBinding_attributes hd) (distinct_applyBinding hd)]
  rcases e.bindingEffect t v with _ | _ | x
  · rfl
  · exact lookup_without h
  · have hne : (name == t) = false := beq_eq_false_iff_ne.mpr h
    simp [affect, List.lookup_cons, hne, lookup_without h]

/-- A binding stays applied when others are applied. -/
theorem Settled.applyBinding (h : e.Settled t v) (hd : e.Distinct) (hne : t ≠ t') :
    (e.applyBinding t' v').Settled t v where
  effect x hx := by
    rw [bindingEffect_congr (applyBinding_tag (e := e))] at hx
    rw [attribute?_applyBinding hd hne]
    exact h.effect x hx
  value := by
    have hvalue := h.value
    unfold bindingValue? at hvalue ⊢
    rw [kind_congr (applyBinding_tag (e := e)), applyBinding_value]
    unfold bindingValue?
    split_ifs at hvalue ⊢ <;> simp_all
  flags := by
    have hflags := h.flags
    unfold bindingFlags at hflags ⊢
    rw [kind_congr (applyBinding_tag (e := e)), applyBinding_flags]
    unfold bindingFlags
    split_ifs at hflags ⊢
    · rw [insertByKey_comm hne, hflags]
    all_goals first | exact hflags | rfl

theorem applyAll_eq_self (h : ∀ t v, (t, v) ∈ vs → e.Settled t v) : e.applyAll vs = e := by
  induction vs with
  | nil => rfl
  | cons x vs ih =>
    obtain ⟨t, v⟩ := x
    rw [applyAll_cons, (h t v List.mem_cons_self).applyBinding_eq]
    exact ih fun t v hmem => h t v (List.mem_cons_of_mem _ hmem)

theorem settled_applyAll (hnd : (vs.map (·.1)).Nodup) (hd : e.Distinct) (hmem : (t, v) ∈ vs) :
    (e.applyAll vs).Settled t v := by
  have hkeep : ∀ (ws : List (String × Value)) (e : Element), e.Distinct → t ∉ ws.map (·.1) →
      e.Settled t v → (e.applyAll ws).Settled t v := fun ws => by
    induction ws with
    | nil => exact fun e _ _ h => h
    | cons x ws ih =>
      intro e hd hnot h
      simp only [List.map_cons, List.mem_cons, not_or] at hnot
      exact ih _ (distinct_applyBinding hd) hnot.2 (h.applyBinding hd hnot.1)
  induction vs generalizing e with
  | nil => exact absurd hmem List.not_mem_nil
  | cons x vs ih =>
    obtain ⟨k, w⟩ := x
    simp only [List.map_cons, List.nodup_cons] at hnd
    rcases List.mem_cons.mp hmem with heq | hmem
    · obtain ⟨rfl, rfl⟩ := Prod.mk.inj heq
      exact hkeep vs _ (distinct_applyBinding hd) hnd.1 (settled_applyBinding hd)
    · exact ih hnd.2 (distinct_applyBinding hd) hmem

/-- To apply the same values again changes nothing. -/
theorem applyAll_twice (hnd : (vs.map (·.1)).Nodup) (hd : e.Distinct) :
    (e.applyAll vs).applyAll vs = e.applyAll vs :=
  applyAll_eq_self fun _ _ => settled_applyAll hnd hd

end Element

end LiveMarkup
