import Mathlib
import LiveMarkup.Proofs.Page.Attributes
import LiveMarkup.Proofs.Page.Shown
import LiveMarkup.Proofs.Page.Skip

/-!
# Elements that show a state

An element shows a state, apart from what an update concerns, if it is the element of the markup with
the values of its bindings applied (`Element.Fits`).  To show the bindings that the update concerns
is what is missing (`Element.Fits.newAttributes`), and any two elements that show the same state
entirely are alike (`Element.Fits.like`).
-/

namespace LiveMarkup

open Text

/-- The bindings of an element: the attributes that they set, and the expressions. -/
def Element.bindings (e : Element) : List (String × String) :=
  e.attributes.filterMap fun (name, source) => (bindingTarget? name).map (·, source)

/-- No attribute is bound to a binding. -/
def Element.Plain (e : Element) : Prop :=
  ∀ name ∈ e.attributes.map (·.1), startsWith "pado-pado-".toList name.toList = false

variable {o : ViewOptions} {scope scope' : Scope} {u : Update} {e e' e'' : Element}
  {t name source : String} {v : Value} {vs : List (String × Value)}

theorem bindingTarget?_eq_some (h : bindingTarget? name = some t) :
    name.toList = bindingStart ++ t.toList ∧ t ∉ unboundTargets := by
  unfold bindingTarget? at h
  split at h
  · cases h
  · rename_i target hafter
    simp only at h
    split at h
    · cases h
    · rename_i hnot
      obtain rfl := Option.some.inj h
      exact ⟨by simpa using after?_eq_some_iff.mp hafter, hnot⟩

theorem bindingTarget?_inj {name' : String} (h : bindingTarget? name = some t)
    (h' : bindingTarget? name' = some t) : name = name' :=
  String.toList_injective ((bindingTarget?_eq_some h).1.trans (bindingTarget?_eq_some h').1.symm)

theorem bindingTarget?_of_startsWith (h : startsWith bindingStart name.toList = false) :
    bindingTarget? name = none := by
  rcases ht : bindingTarget? name with _ | t
  · rfl
  · rw [startsWith_iff.mpr ⟨_, (bindingTarget?_eq_some ht).1⟩] at h
    cases h

namespace Element

theorem mem_bindings : (t, source) ∈ e.bindings ↔
    ∃ name, (name, source) ∈ e.attributes ∧ bindingTarget? name = some t := by
  unfold bindings
  simp only [List.mem_filterMap, Prod.exists, Option.map_eq_some_iff, Prod.mk.injEq]
  constructor
  · rintro ⟨name, source', hmem, t', ht', rfl, rfl⟩
    exact ⟨name, hmem, ht'⟩
  · rintro ⟨name, hmem, ht⟩
    exact ⟨name, source, hmem, t, ht, rfl, rfl⟩

theorem nodup_bindings (h : e.Distinct) : (e.bindings.map (·.1)).Nodup := by
  unfold bindings
  unfold Distinct at h
  generalize e.attributes = xs at h
  induction xs with
  | nil => exact List.nodup_nil
  | cons x xs ih =>
    obtain ⟨name, source⟩ := x
    simp only [List.map_cons, List.nodup_cons] at h
    simp only [List.filterMap_cons]
    rcases ht : bindingTarget? name with _ | t
    · exact ih h.2
    · simp only [Option.map_some, List.map_cons, List.nodup_cons]
      refine ⟨fun hmem => ?_, ih h.2⟩
      obtain ⟨⟨t', source'⟩, hmem', rfl⟩ := List.mem_map.mp hmem
      obtain ⟨⟨name', source''⟩, hin, heq⟩ := List.mem_filterMap.mp hmem'
      obtain ⟨t'', ht'', heq⟩ := Option.map_eq_some_iff.mp heq
      obtain ⟨rfl, rfl⟩ := Prod.mk.inj heq
      exact h.1 (bindingTarget?_inj ht ht'' ▸ List.mem_map_of_mem (f := (·.1)) hin)

/-- What is bound is none of the attributes that bind something. -/
theorem Plain.not_startsWith_target (hp : e.Plain) (h : t ∈ e.bindings.map (·.1)) :
    startsWith bindingStart t.toList = false := by
  obtain ⟨⟨t, source⟩, hmem, rfl⟩ := List.mem_map.mp h
  obtain ⟨name, hname, ht⟩ := mem_bindings.mp hmem
  have hnot := hp name (List.mem_map_of_mem hname)
  rw [← Bool.not_eq_true, startsWith_iff] at hnot ⊢
  rintro ⟨rest, hrest⟩
  refine hnot ⟨rest, ?_⟩
  rw [(bindingTarget?_eq_some ht).1, hrest]
  rfl

/-- What is bound is neither a binding nor the attribute that holds a text. -/
theorem Plain.target (hp : e.Plain) (h : t ∈ e.bindings.map (·.1)) :
    bindingTarget? t = none ∧ t ≠ String.ofList textBinding := by
  have hstart := hp.not_startsWith_target h
  refine ⟨bindingTarget?_of_startsWith hstart, ?_⟩
  rintro rfl
  rw [String.toList_ofList] at hstart
  exact absurd hstart (by decide)

theorem bindings_setAttribute (h : bindingTarget? name = none) :
    (e.setAttribute name source).bindings = e.bindings := by
  unfold bindings setAttribute
  simp only
  generalize e.attributes = xs
  induction xs with
  | nil => simp [setIn, h]
  | cons x xs ih =>
    obtain ⟨k, x⟩ := x
    rw [setIn]
    split
    · rename_i hk
      subst hk
      simp only [List.filterMap_cons, h, Option.map_none]
    · simp only [List.filterMap_cons, ih]

theorem bindings_removeAttribute (h : bindingTarget? name = none) :
    (e.removeAttribute name).bindings = e.bindings := by
  unfold bindings removeAttribute
  simp only
  generalize e.attributes = xs
  induction xs with
  | nil => rfl
  | cons x xs ih =>
    obtain ⟨k, x⟩ := x
    rw [removeIn]
    split
    · rename_i hk
      subst hk
      simp only [List.filterMap_cons, h, Option.map_none]
    · simp only [List.filterMap_cons, ih]

/-- A binding whose target is none itself leaves what is bound. -/
theorem bindings_applyBinding (ht : bindingTarget? t = none) :
    (e.applyBinding t v).bindings = e.bindings := by
  have hset : ∀ x, (e.setAttribute t x).bindings = e.bindings := fun x => bindings_setAttribute ht
  have hremove : (e.removeAttribute t).bindings = e.bindings := bindings_removeAttribute ht
  have hflag : ∀ (e' : Element) b, (e'.setFlag t b).bindings = e'.bindings := fun _ _ => rfl
  unfold applyBinding
  split_ifs <;> first | simp only [hflag, hset, hremove] | rfl

theorem bindings_applyAll (h : ∀ t ∈ vs.map (·.1), bindingTarget? t = none) :
    (e.applyAll vs).bindings = e.bindings := by
  induction vs generalizing e with
  | nil => rfl
  | cons x vs ih =>
    simp only [List.map_cons, List.forall_mem_cons] at h
    exact (ih h.2).trans (bindings_applyBinding h.1)

theorem attribute?_applyAll (hd : e.Distinct) (h : name ∉ vs.map (·.1)) :
    (e.applyAll vs).attribute? name = e.attribute? name := by
  induction vs generalizing e with
  | nil => rfl
  | cons x vs ih =>
    simp only [List.map_cons, List.mem_cons, not_or] at h
    exact (ih (distinct_applyBinding hd) h.2).trans (attribute?_applyBinding hd h.1)

theorem Like.bindings_perm (h : Like e e') : e.bindings.Perm e'.bindings :=
  h.attributes.filterMap _

theorem Like.attribute?_eq (h : Like e e') (hd : e.Distinct) :
    e.attribute? name = e'.attribute? name :=
  lookup_perm h.attributes hd

/-! ## Showing a state -/

/-- An element is the one of the markup with values applied to the targets of its bindings, and those
that the update does not concern have the values that the scope gives them. -/
def Fits (o : ViewOptions) (scope : Scope) (u : Update) (e e' : Element) : Prop :=
  ∃ vs : List (String × Value), (vs.map (·.1)).Nodup ∧
    (∀ t ∈ vs.map (·.1), t ∈ e.bindings.map (·.1)) ∧ Like e' (e.applyAll vs) ∧
    ∀ t source, (t, source) ∈ e.bindings → u.meets (expressionVars source.toList) = true ∨
      vs.lookup t = some (valueOf o.namesItems scope source.toList)

/-- The value of every binding is defined. -/
def Defined (o : ViewOptions) (scope : Scope) (e : Element) : Prop :=
  ∀ t source, (t, source) ∈ e.bindings → valueOf o.namesItems scope source.toList ≠ .undefined

theorem boundValues_eq : e.boundValues o.namesItems scope u = e.bindings.filterMap
    fun (t, source) => if u.meets (expressionVars source.toList) then
      match valueOf o.namesItems scope source.toList with
      | .undefined => none
      | v => some (t, v)
    else none := by
  unfold boundValues bindings
  rw [List.filterMap_filterMap]
  refine List.filterMap_congr fun x _ => ?_
  obtain ⟨name, source⟩ := x
  simp only
  rcases bindingTarget? name with _ | t <;> rfl

theorem mem_boundValues : (t, v) ∈ e.boundValues o.namesItems scope u ↔ ∃ source,
    (t, source) ∈ e.bindings ∧ u.meets (expressionVars source.toList) = true ∧
      v = valueOf o.namesItems scope source.toList ∧ v ≠ .undefined := by
  rw [boundValues_eq]
  simp only [List.mem_filterMap, Prod.exists]
  constructor
  · rintro ⟨t', source, hmem, h⟩
    split at h
    · rename_i hmeets
      rcases hv : valueOf o.namesItems scope source.toList <;> rw [hv] at h <;> cases h
      all_goals exact ⟨source, hmem, hmeets, hv.symm, by simp⟩
    · cases h
  · rintro ⟨source, hmem, hmeets, rfl, hne⟩
    refine ⟨t, source, hmem, ?_⟩
    rw [if_pos hmeets]
    split
    · rename_i hv
      exact absurd hv hne
    · rfl

theorem nodup_boundValues (hd : e.Distinct) :
    ((e.boundValues o.namesItems scope u).map (·.1)).Nodup := by
  rw [boundValues_eq]
  refine (nodup_bindings hd).sublist ?_
  generalize e.bindings = xs
  induction xs with
  | nil => exact .slnil
  | cons x xs ih =>
    obtain ⟨t, source⟩ := x
    simp only [List.filterMap_cons]
    split
    · exact ih.cons _
    · rename_i y hy
      obtain rfl : y.1 = t := by
        split at hy
        · split at hy <;> cases hy
          rfl
        · cases hy
      exact ih.cons_cons _

theorem Fits.raw (o : ViewOptions) (scope : Scope) (e : Element) : Fits o scope .all e e :=
  ⟨[], List.nodup_nil, by simp, Like.refl e, fun _ _ _ => .inl rfl⟩

theorem Fits.distinct (h : Fits o scope u e e') (hd : e.Distinct) : e'.Distinct := by
  obtain ⟨vs, -, -, hlike, -⟩ := h
  exact hlike.symm.distinct (distinct_applyAll hd)

/-- The text that an element is bound to stays. -/
theorem Fits.boundText (h : Fits o scope u e e') (hd : e.Distinct) (hp : e.Plain) :
    e'.attribute? (String.ofList textBinding) = e.attribute? (String.ofList textBinding) := by
  obtain ⟨vs, -, hkeys, hlike, -⟩ := h
  rw [hlike.attribute?_eq (hlike.symm.distinct (distinct_applyAll hd))]
  exact attribute?_applyAll hd fun hmem => (hp.target (hkeys _ hmem)).2 rfl

/-- What an update does not concern fits also after it. -/
theorem Fits.after {names : List String} (h : Fits o scope (.keys []) e e')
    (hsame : ∀ t source, (t, source) ∈ e.bindings →
      (Update.keys names).meets (expressionVars source.toList) = false →
      valueOf o.namesItems scope source.toList = valueOf o.namesItems scope' source.toList) :
    Fits o scope' (.keys names) e e' := by
  obtain ⟨vs, hnd, hkeys, hlike, hvals⟩ := h
  refine ⟨vs, hnd, hkeys, hlike, fun t source hmem => ?_⟩
  rcases hm : (Update.keys names).meets (expressionVars source.toList) with _ | _
  · refine .inr ?_
    rw [← hsame t source hmem hm]
    exact (hvals t source hmem).resolve_left (by simp [Update.meets])
  · exact .inl rfl

/-- With the bindings shown that the update concerns, an element shows the state entirely. -/
theorem Fits.newAttributes (h : Fits o scope u e e') (hd : e.Distinct) (hp : e.Plain)
    (hdef : e.Defined o scope) :
    Fits o scope (.keys []) e (View.newAttributes o scope u e') := by
  obtain ⟨vs, hnd, hkeys, hlike, hvals⟩ := h
  have hd' := hlike.symm.distinct (distinct_applyAll hd)
  have hbind : e'.bindings.Perm e.bindings := hlike.bindings_perm.trans
    (.of_eq (bindings_applyAll fun t ht => (hp.target (hkeys t ht)).1))
  set ws := e'.boundValues o.namesItems scope u with hws
  have hwnd : (ws.map (·.1)).Nodup := nodup_boundValues hd'
  have hmem : ∀ t v, (t, v) ∈ ws ↔ ∃ source, (t, source) ∈ e.bindings ∧
      u.meets (expressionVars source.toList) = true ∧
      v = valueOf o.namesItems scope source.toList ∧ v ≠ .undefined := fun t v => by
    rw [hws, mem_boundValues]
    simp only [hbind.mem_iff]
  obtain ⟨vs', hnd', hlike', hkeys', hlook⟩ := applyAll_applyAll ws hnd hd
  refine ⟨vs', hnd', fun t ht => ?_, (hlike.applyAll hd').trans hlike', fun t source hb => .inr ?_⟩
  · rcases (hkeys' t).mp ht with ht | ht
    · exact hkeys t ht
    · obtain ⟨⟨t, v⟩, hv, rfl⟩ := List.mem_map.mp ht
      obtain ⟨source, hb, -⟩ := (hmem t v).mp hv
      exact List.mem_map_of_mem (f := (·.1)) hb
  · rw [hlook hwnd]
    have huniq : ∀ source', (t, source') ∈ e.bindings → source' = source := fun source' hb' => by
      have h1 := (mem_iff_lookup (nodup_bindings hd)).mp hb
      have h2 := (mem_iff_lookup (nodup_bindings hd)).mp hb'
      exact Option.some.inj (h2.symm.trans h1)
    rcases hvals t source hb with hm | hv
    · rw [(mem_iff_lookup hwnd).mp ((hmem t _).mpr ⟨source, hb, hm, rfl, hdef t source hb⟩)]
      rfl
    · rcases hw : ws.lookup t with _ | v
      · exact hv
      · obtain ⟨source', hb', -, hv', -⟩ := (hmem t v).mp ((mem_iff_lookup hwnd).mpr hw)
        rw [hv', huniq source' hb']
        rfl

/-- Elements that show the same state entirely are alike. -/
theorem Fits.like (h : Fits o scope (.keys []) e e') (h' : Fits o scope (.keys []) e e'')
    (hd : e.Distinct) : Like e' e'' := by
  obtain ⟨vs, hnd, hkeys, hlike, hvals⟩ := h
  obtain ⟨vs', hnd', hkeys', hlike', hvals'⟩ := h'
  have hmem : ∀ {ws : List (String × Value)}, (ws.map (·.1)).Nodup →
      (∀ t ∈ ws.map (·.1), t ∈ e.bindings.map (·.1)) → (∀ t source, (t, source) ∈ e.bindings →
      (Update.keys []).meets (expressionVars source.toList) = true ∨
        ws.lookup t = some (valueOf o.namesItems scope source.toList)) → ∀ t v, (t, v) ∈ ws ↔
      ∃ source, (t, source) ∈ e.bindings ∧ v = valueOf o.namesItems scope source.toList := by
    intro ws hws hk hv t v
    have hval : ∀ source, (t, source) ∈ e.bindings →
        ws.lookup t = some (valueOf o.namesItems scope source.toList) := fun source hb =>
      (hv t source hb).resolve_left (by simp [Update.meets])
    rw [mem_iff_lookup hws]
    constructor
    · intro hl
      obtain ⟨⟨t, source⟩, hb, rfl⟩ := List.mem_map.mp
        (hk t (List.mem_map_of_mem (f := (·.1)) ((mem_iff_lookup hws).mpr hl)))
      exact ⟨source, hb, Option.some.inj (hl.symm.trans (hval source hb))⟩
    · rintro ⟨source, hb, rfl⟩
      exact hval source hb
  have hperm : vs.Perm vs' := (List.perm_ext_iff_of_nodup (List.Nodup.of_map _ hnd)
    (List.Nodup.of_map _ hnd')).mpr fun x => by
      obtain ⟨t, v⟩ := x
      rw [hmem hnd hkeys hvals, hmem hnd' hkeys' hvals']
  exact (hlike.trans (applyAll_perm hperm hnd hd)).trans hlike'.symm

/-! ## Showing a state again -/

theorem mem_bindings_of_boundValues (h : t ∈ (e.boundValues o.namesItems scope u).map (·.1)) :
    t ∈ e.bindings.map (·.1) := by
  obtain ⟨⟨t, v⟩, hv, rfl⟩ := List.mem_map.mp h
  obtain ⟨source, hb, -⟩ := mem_boundValues.mp hv
  exact List.mem_map_of_mem (f := (·.1)) hb

theorem bindings_newAttributes (hp : e.Plain) :
    (View.newAttributes o scope u e).bindings = e.bindings :=
  bindings_applyAll fun _ ht => (hp.target (mem_bindings_of_boundValues ht)).1

theorem boundText_newAttributes (hd : e.Distinct) (hp : e.Plain) :
    (View.newAttributes o scope u e).attribute? (String.ofList textBinding) =
      e.attribute? (String.ofList textBinding) :=
  attribute?_applyAll hd fun ht => (hp.target (mem_bindings_of_boundValues ht)).2 rfl

/-- To show the attributes of an element again changes nothing. -/
theorem newAttributes_twice (hd : e.Distinct) (hp : e.Plain) :
    View.newAttributes o scope u (View.newAttributes o scope u e) = View.newAttributes o scope u e := by
  have hvalues : (View.newAttributes o scope u e).boundValues o.namesItems scope u =
      e.boundValues o.namesItems scope u := by
    rw [boundValues_eq, boundValues_eq, bindings_newAttributes hp]
  calc View.newAttributes o scope u (View.newAttributes o scope u e)
      = (View.newAttributes o scope u e).applyAll (e.boundValues o.namesItems scope u) := by
        rw [← hvalues]
        rfl
    _ = View.newAttributes o scope u e := applyAll_twice (nodup_boundValues hd) hd

/-! ## Other changes of attributes -/

theorem attribute?_setAttribute (h : t ≠ name) :
    (e.setAttribute name source).attribute? t = e.attribute? t := by
  unfold attribute? setAttribute
  simp only
  have hne : (t == name) = false := beq_eq_false_iff_ne.mpr h
  generalize e.attributes = xs
  induction xs with
  | nil => simp [setIn, List.lookup, hne]
  | cons x xs ih =>
    obtain ⟨k, x⟩ := x
    rw [setIn]
    split
    · rename_i hk
      subst hk
      simp [List.lookup_cons, hne]
    · rw [List.lookup_cons, List.lookup_cons, ih]

theorem keys_setAttribute : (e.setAttribute name source).attributes.map (·.1) =
    if name ∈ e.attributes.map (·.1) then e.attributes.map (·.1)
    else e.attributes.map (·.1) ++ [name] := by
  unfold setAttribute
  simp only
  generalize e.attributes = xs
  induction xs with
  | nil => rfl
  | cons x xs ih =>
    obtain ⟨k, x⟩ := x
    rw [setIn]
    by_cases hk : k = name
    · subst hk
      simp
    · rw [if_neg hk, List.map_cons, ih]
      by_cases hmem : name ∈ xs.map (·.1)
      · simp [hmem]
      · simp [hmem, Ne.symm hk]

theorem distinct_setAttribute (h : e.Distinct) : (e.setAttribute name source).Distinct := by
  unfold Distinct
  rw [keys_setAttribute]
  split
  · exact h
  · rename_i hname
    exact List.nodup_append'.mpr ⟨h, List.nodup_singleton _, by simpa using hname⟩

theorem plain_setAttribute (h : e.Plain)
    (hname : startsWith "pado-pado-".toList name.toList = false) :
    (e.setAttribute name source).Plain := by
  unfold Plain
  rw [keys_setAttribute]
  split
  · exact h
  · intro n hn
    rcases List.mem_append.mp hn with hn | hn
    · exact h n hn
    · rw [List.mem_singleton.mp hn]
      exact hname

/-- The attribute of an event is none of those that start with `pado-`. -/
theorem startsWith_eq_false_of_isEventAttribute {start : List Char} (h : isEventAttribute name = true) :
    startsWith ('p' :: start) name.toList = false := by
  simp only [isEventAttribute, Bool.and_eq_true] at h
  obtain ⟨rest, hrest⟩ := Option.isSome_iff_exists.mp h.2
  rw [after?_eq_some_iff.mp hrest]
  rfl

/-- What setting the attributes of events keeps, completing the handlers keeps. -/
theorem completeHandlers_induction {P : Element → Prop} (h0 : P e)
    (h : ∀ e name call, isEventAttribute name = true → P e → P (e.setAttribute name call)) :
    P e.completeHandlers := by
  unfold completeHandlers
  have hcalls : ∀ c ∈ e.handlerCalls, isEventAttribute c.1 = true := fun c hc => by
    obtain ⟨⟨name, value⟩, -, heq⟩ := List.mem_filterMap.mp hc
    simp only at heq
    split at heq
    · rename_i hname
      obtain ⟨call, -, rfl⟩ := Option.map_eq_some_iff.mp heq
      exact hname
    · cases heq
  generalize e.handlerCalls = calls at hcalls
  induction calls generalizing e with
  | nil => exact h0
  | cons c calls ih =>
    rw [List.forall_mem_cons] at hcalls
    exact ih (h e c.1 c.2 hcalls.1 h0) hcalls.2

theorem bindings_completeHandlers (e : Element) : e.completeHandlers.bindings = e.bindings :=
  completeHandlers_induction (P := fun e' => e'.bindings = e.bindings) rfl fun _ _ _ hname h =>
    (bindings_setAttribute (bindingTarget?_of_startsWith
      (startsWith_eq_false_of_isEventAttribute hname))).trans h

theorem boundText_completeHandlers (e : Element) :
    e.completeHandlers.attribute? (String.ofList textBinding) =
      e.attribute? (String.ofList textBinding) := by
  refine completeHandlers_induction (P := fun e' => e'.attribute? _ = e.attribute? _) rfl
    fun e' name call hname h => (attribute?_setAttribute ?_).trans h
  rintro rfl
  have hfalse : startsWith bindingStart _ = false :=
    startsWith_eq_false_of_isEventAttribute hname
  rw [String.toList_ofList] at hfalse
  exact absurd hfalse (by decide)

theorem distinct_completeHandlers (h : e.Distinct) : e.completeHandlers.Distinct :=
  completeHandlers_induction h fun _ _ _ _ h => distinct_setAttribute h

theorem plain_completeHandlers (h : e.Plain) : e.completeHandlers.Plain :=
  completeHandlers_induction h fun _ _ _ hname h =>
    plain_setAttribute h (startsWith_eq_false_of_isEventAttribute hname)

/-- A change of elements that leaves what is bound in them. -/
structure Harmless (change : Element → Element) : Prop where
  bindings : ∀ e, (change e).bindings = e.bindings
  text : ∀ e, (change e).attribute? (String.ofList textBinding) =
    e.attribute? (String.ofList textBinding)
  distinct : ∀ {e}, e.Distinct → (change e).Distinct
  plain : ∀ {e}, e.Plain → (change e).Plain

theorem harmless_completeHandlers : Harmless completeHandlers :=
  ⟨bindings_completeHandlers, boundText_completeHandlers, distinct_completeHandlers,
    plain_completeHandlers⟩

end Element

end LiveMarkup
