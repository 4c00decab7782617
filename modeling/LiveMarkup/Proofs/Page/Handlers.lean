import LiveMarkup.Proofs.Markup.Nodes
import LiveMarkup.Proofs.Page.Starting
import LiveMarkup.Proofs.Template.Tags
import LiveMarkup.Proofs.Text.Trim

/-!
# Elements with completed handlers

An element completes another one if its event attributes hold what those of the other one stand for,
apart from those that a binding sets (`Element.Completes`).  Completing the handlers of an element
brings that about (`Element.completes_completeHandlers`), and to mark it or to show its bindings keeps
it (`Element.Completes.mark`, `Element.Completes.newAttributes`).  A completed call is no group of
braces any more, unless a group stood right inside the group (`completeCall_finishedCall`).
-/

namespace LiveMarkup

open Text

/-- The value of an event attribute once it is completed. -/
def finishedCall (value : String) : String :=
  ((completeCall value.toList).map String.ofList).getD value

/-- A group of braces whose inside starts with a brace again. -/
def IsNested (value : List Char) : Prop :=
  ∃ inner, singleExpression? value = some inner ∧ (trim inner).head? = some '\x7b'

/-- The name of the attribute that binds an attribute with a given name. -/
def bindingName (name : String) : String :=
  String.ofList (bindingStart ++ name.toList)

theorem bindingName_eq_of_target {name t : String} (h : bindingTarget? name = some t) :
    name = bindingName t := by
  rw [bindingName, ← (bindingTarget?_eq_some h).1, String.ofList_toList]

/-! ## Calls -/

theorem singleExpression?_eq_none_of_head {cs : List Char} (h : (trim cs).head? ≠ some '\x7b') :
    singleExpression? cs = none := by
  rw [singleExpression?]
  rcases htrim : trim cs with _ | ⟨c, rest⟩
  · rfl
  · have hc : c ≠ '\x7b' := fun hc => h (by rw [htrim, hc, List.head?_cons])
    rw [braceGroup?_eq_none hc]

/-- Parentheses after a trimmed text are not trimmed off. -/
theorem trim_call (cs : List Char) : trim (trim cs ++ ['(', ')']) = trim cs ++ ['(', ')'] := by
  have hfirst := (ends_of_trim (trim_trim cs)).1
  have hopen : isBlank '(' = false := by decide
  have hclose : isBlank ')' = false := by decide
  have hstart : (trim cs ++ ['(', ')']).dropWhile isBlank = trim cs ++ ['(', ')'] := by
    rcases htrim : trim cs with _ | ⟨c, rest⟩
    · simp [hopen]
    · rw [htrim] at hfirst
      simp [not_isBlank_of_dropWhile hfirst]
  rw [trim, hstart]
  simp [hclose]

theorem head?_trim_call {cs : List Char} (h : (trim cs).head? ≠ some '\x7b') :
    (trim cs ++ ['(', ')']).head? ≠ some '\x7b' := by
  rcases htrim : trim cs with _ | ⟨c, rest⟩
  · decide
  · rwa [htrim] at h

/-- What is completed stays as it is when it is completed again. -/
theorem completeCall_finishedCall {value : String} (h : ¬ IsNested value.toList) :
    completeCall (finishedCall value).toList = none := by
  rcases hs : singleExpression? value.toList with _ | inner
  · have hnone : completeCall value.toList = none := by rw [completeCall, hs, Option.map_none]
    rw [finishedCall, hnone, Option.map_none, Option.getD_none, hnone]
  · have hhead : (trim inner).head? ≠ some '\x7b' := fun hhead => h ⟨inner, hs, hhead⟩
    have hcall : completeCall value.toList =
        some (if '(' ∈ trim inner then trim inner else trim inner ++ ['(', ')']) := by
      rw [completeCall, hs, Option.map_some]
    rw [finishedCall, hcall, Option.map_some, Option.getD_some, String.toList_ofList, completeCall,
      singleExpression?_eq_none_of_head, Option.map_none]
    split
    · rwa [trim_trim]
    · rw [trim_call]
      exact head?_trim_call hhead

/-- A single group of braces becomes a call. -/
example : finishedCall "\x7b move(1) \x7d" = "move(1)" ∧ finishedCall "\x7bh\x7d" = "h()" ∧
    finishedCall "h()" = "h()" := by decide

namespace Element

variable {o : ViewOptions} {scope : Scope} {u : Update} {e e₀ : Element} {t name value : String}
  {v : Value} {vs : List (String × Value)}

/-! ## Attributes that stay -/

theorem attribute?_setAttribute_self : (e.setAttribute name value).attribute? name = some value := by
  unfold attribute? setAttribute
  dsimp only
  induction e.attributes with
  | nil => simp [setIn]
  | cons x xs ih =>
    obtain ⟨k, w⟩ := x
    rw [setIn]
    split
    · rename_i hk
      rw [hk, List.lookup_cons_self]
    · rename_i hk
      rwa [List.lookup_cons, beq_eq_false_iff_ne.mpr (Ne.symm hk)]

theorem hasAttribute_setAttribute (h : e.hasAttribute name = true) :
    (e.setAttribute t value).hasAttribute name = true := by
  unfold hasAttribute at h ⊢
  by_cases hname : name = t
  · rw [hname, attribute?_setAttribute_self, Option.isSome_some]
  · rwa [attribute?_setAttribute hname]

theorem hasAttribute_completeHandlers (h : e.hasAttribute name = true) :
    e.completeHandlers.hasAttribute name = true :=
  completeHandlers_induction (P := fun e' => e'.hasAttribute name = true) h fun _ _ _ _ =>
    hasAttribute_setAttribute

theorem lookup_removeIn (h : name ≠ t) : ∀ xs : List (String × String),
    (removeIn t xs).lookup name = xs.lookup name
  | [] => rfl
  | (k, w) :: xs => by
    rw [removeIn]
    split
    · rename_i hk
      rw [List.lookup_cons, beq_eq_false_iff_ne.mpr (hk ▸ h)]
    · rw [List.lookup_cons, List.lookup_cons, lookup_removeIn h xs]

theorem hasAttribute_removeAttribute (hname : name ≠ t) (h : e.hasAttribute name = true) :
    (e.removeAttribute t).hasAttribute name = true := by
  rwa [hasAttribute, attribute?, removeAttribute, lookup_removeIn hname]

/-- Bindings take off no attributes but flags. -/
theorem hasAttribute_applyBinding (hname : name ∉ flagAttributes) (h : e.hasAttribute name = true) :
    (e.applyBinding t v).hasAttribute name = true := by
  have hset : ∀ w, (e.setAttribute t w).hasAttribute name = true := fun _ => hasAttribute_setAttribute h
  unfold applyBinding
  split
  · rename_i ht
    have hshown : (if v.isTruthy then e.setAttribute t "" else e.removeAttribute t).hasAttribute name =
        true := by
      split
      · exact hset ""
      · exact hasAttribute_removeAttribute (fun heq => hname (heq ▸ ht)) h
    dsimp only
    split
    · exact hshown
    · exact hshown
  · split
    · exact h
    · exact hset v.text

theorem hasAttribute_newAttributes (hname : name ∉ flagAttributes) (h : e.hasAttribute name = true) :
    (View.newAttributes o scope u e).hasAttribute name = true := by
  show (e.applyAll (e.boundValues o.namesItems scope u)).hasAttribute name = true
  generalize e.boundValues o.namesItems scope u = vs
  induction vs generalizing e with
  | nil => exact h
  | cons x vs ih => exact ih (hasAttribute_applyBinding hname h)

/-- The attributes that bind others are no flags. -/
theorem bindingName_not_mem_flagAttributes (name : String) : bindingName name ∉ flagAttributes := by
  have hne : ∀ flag ∈ flagAttributes, startsWith bindingStart flag.toList = false := by decide
  intro hmem
  have hstart : startsWith bindingStart (bindingName name).toList = true := by
    rw [bindingName, String.toList_ofList]
    exact startsWith_iff.mpr ⟨_, rfl⟩
  rw [hne _ hmem] at hstart
  cases hstart

/-- Only an attribute that is bound is set when the bindings are shown. -/
theorem attribute?_newAttributes (hd : e.Distinct) (h : e.hasAttribute (bindingName name) = false) :
    (View.newAttributes o scope u e).attribute? name = e.attribute? name := by
  refine attribute?_applyAll hd fun hmem => ?_
  obtain ⟨⟨t, source⟩, hb, rfl⟩ := List.mem_map.mp (mem_bindings_of_boundValues hmem)
  obtain ⟨n, hn, ht⟩ := mem_bindings.mp hb
  rw [hasAttribute, attribute?, ← bindingName_eq_of_target ht, (mem_iff_lookup hd).mp hn] at h
  cases h

/-! ## Handlers -/

theorem attribute?_setAll : ∀ {calls : List (String × String)} {e : Element},
    (calls.map (·.1)).Nodup →
      (calls.foldl (fun e (n, call) => e.setAttribute n call) e).attribute? name =
        (calls.lookup name).or (e.attribute? name)
  | [], _, _ => rfl
  | (n, call) :: calls, e, hnd => by
    rw [List.map_cons, List.nodup_cons] at hnd
    rw [List.foldl_cons, attribute?_setAll hnd.2]
    by_cases hn : name = n
    · have hnone : calls.lookup name = none := List.lookup_eq_none_iff.mpr fun p hp =>
        bne_iff_ne.mpr fun heq => hnd.1 (List.mem_map.mpr ⟨p, hp, heq.symm.trans hn⟩)
      rw [hnone, hn, List.lookup_cons_self, attribute?_setAttribute_self]
      rfl
    · rw [attribute?_setAttribute hn, List.lookup_cons, beq_eq_false_iff_ne.mpr hn]

theorem nodup_handlerCalls (hd : e.Distinct) : (e.handlerCalls.map (·.1)).Nodup := by
  have hsub : (e.handlerCalls.map (·.1)).Sublist (e.attributes.map (·.1)) := by
    unfold handlerCalls
    induction e.attributes with
    | nil => exact .slnil
    | cons x xs ih =>
      obtain ⟨n, w⟩ := x
      rw [List.filterMap_cons, List.map_cons]
      split
      · exact ih.cons _
      · rename_i y hy
        simp only at hy
        split at hy
        · obtain ⟨call, -, rfl⟩ := Option.map_eq_some_iff.mp hy
          exact ih.cons_cons _
        · cases hy
  exact hd.sublist hsub

theorem lookup_handlerCalls (hd : e.Distinct) (hname : isEventAttribute name = true) :
    e.handlerCalls.lookup name =
      (e.attribute? name).bind fun w => (completeCall w.toList).map String.ofList := by
  refine Option.ext fun call => ?_
  rw [← mem_iff_lookup (nodup_handlerCalls hd), Option.bind_eq_some_iff]
  simp only [handlerCalls, List.mem_filterMap, Prod.exists, attribute?, ← mem_iff_lookup hd]
  constructor
  · rintro ⟨n, w, hmem, h⟩
    split at h
    · obtain ⟨c, hc, heq⟩ := Option.map_eq_some_iff.mp h
      obtain ⟨rfl, rfl⟩ := Prod.mk.inj heq
      exact ⟨w, hmem, by rw [hc, Option.map_some]⟩
    · cases h
  · rintro ⟨w, hmem, h⟩
    obtain ⟨c, hc, rfl⟩ := Option.map_eq_some_iff.mp h
    exact ⟨name, w, hmem, by rw [if_pos hname, hc, Option.map_some]⟩

/-- Each event attribute is completed. -/
theorem attribute?_completeHandlers (hd : e.Distinct) (hname : isEventAttribute name = true) :
    e.completeHandlers.attribute? name = (e.attribute? name).map finishedCall := by
  unfold completeHandlers
  rw [attribute?_setAll (nodup_handlerCalls hd), lookup_handlerCalls hd hname]
  rcases e.attribute? name with _ | w
  · rfl
  · rw [Option.bind_some, Option.map_some, finishedCall]
    rcases completeCall w.toList with _ | c <;> rfl

/-- The event attributes of an element are those of another one, completed, but for those that a
binding sets. -/
structure Completes (e₀ e : Element) : Prop where
  tag : e.tag = e₀.tag
  distinct : e.Distinct
  handlers : ∀ name, isEventAttribute name = true → e.hasAttribute (bindingName name) = false →
    e.attribute? name = (e₀.attribute? name).map finishedCall

theorem completes_completeHandlers (hd : e.Distinct) : e.Completes e.completeHandlers where
  tag := completeHandlers_induction (P := fun e' => e'.tag = e.tag) rfl fun _ _ _ _ h => h
  distinct := distinct_completeHandlers hd
  handlers _ hname _ := attribute?_completeHandlers hd hname

namespace Completes

/-- The mark of a started document is no event attribute. -/
theorem mark (h : e₀.Completes e) : e₀.Completes e.mark where
  tag := h.tag
  distinct := distinct_setAttribute h.distinct
  handlers name hname hnone := by
    have hne : name ≠ startedMark := by
      rintro rfl
      exact absurd hname (by decide)
    rw [Element.mark, attribute?_setAttribute hne]
    refine h.handlers name hname ?_
    rw [← Bool.not_eq_true] at hnone ⊢
    exact fun hhas => hnone (hasAttribute_setAttribute hhas)

/-- An event attribute that no binding sets stays when the bindings are shown. -/
theorem newAttributes (h : e₀.Completes e) (o : ViewOptions) (scope : Scope) (u : Update) :
    e₀.Completes (View.newAttributes o scope u e) where
  tag := by
    show (e.applyAll (e.boundValues o.namesItems scope u)).tag = e₀.tag
    rw [← h.tag]
    generalize e.boundValues o.namesItems scope u = vs
    clear h
    induction vs generalizing e with
    | nil => rfl
    | cons x vs ih => exact ih.trans applyBinding_tag
  distinct := distinct_applyAll h.distinct
  handlers name hname hnone := by
    have hfree : e.hasAttribute (bindingName name) = false := by
      rw [← Bool.not_eq_true] at hnone ⊢
      exact fun hhas => hnone
        (hasAttribute_newAttributes (bindingName_not_mem_flagAttributes name) hhas)
    rw [attribute?_newAttributes h.distinct hfree]
    exact h.handlers name hname hfree

end Completes

end Element

end LiveMarkup
