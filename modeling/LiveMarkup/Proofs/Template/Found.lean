import LiveMarkup.Proofs.Page.Fits
import LiveMarkup.Proofs.Template.Static
import LiveMarkup.Proofs.Template.Unescaping

/-!
# Bindings that are found in the text

A template is checked in its text: whatever looks like a binding attribute is taken for one.  When the
page is shown the markup is parsed, and its elements have the bindings.  Markup is well spelled
(`Spelled`) if nothing but its tags looks like a binding attribute, and each binding attribute in a
tag looks like one.  Then the expressions that are found in the text are those of the elements
(`Spelled.expressionsAfter_eq`).

Regular markup that does not write bindings itself is well spelled when it is bound, if the names that
it binds are those of bindings and its texts do not look like references (`Regular.spelled`).
-/

namespace LiveMarkup

open Text

variable {a cs gap name raw rest s u : List Char} {c : Char} {p : TagPart} {ps : List TagPart}
  {t : TagText} {previous : Option Char}

/-! ## The search for bindings -/

theorem scanBinding?_eq_none (h : after? bindingStart cs = none) : scanBinding? cs = none := by
  rw [scanBinding?, show "pado-".toList = bindingStart from rfl, h]

theorem length_lt_of_scanBinding? {value : List Char} (h : scanBinding? cs = some (name, value, rest)) :
    rest.length < cs.length := by
  unfold scanBinding? at h
  split at h
  · rename_i c r hafter
    split_ifs at h
    split at h
    · rename_i v hv
      split at h
      · rename_i q rest' hrest
        cases h
        have hcs := congrArg List.length (after?_eq_some_iff.mp hafter)
        have hr := congrArg List.length (after?_eq_some_iff.mp hv)
        have hname := List.length_dropWhile_le isBindingRest r
        have hvalue := List.length_dropWhile_le (· ≠ '"') v
        rw [hrest, List.length_cons] at hvalue
        rw [List.length_append] at hr
        simp only [List.length_append, List.length_cons] at hcs
        omega
      · cases h
    · cases h
  · cases h

/-- The bindings that are found after a given character. -/
def bindingsAfter (previous : Option Char) (cs : List Char) : List (List Char × List Char) :=
  bindingsFrom cs.length previous cs

theorem bindingsFrom_eq : ∀ {fuel : Nat} {previous : Option Char} {cs : List Char}, cs.length ≤ fuel →
    bindingsFrom fuel previous cs = bindingsAfter previous cs
  | 0, _, cs, h => by
    obtain rfl := List.length_eq_zero_iff.mp (Nat.le_zero.mp h)
    rfl
  | _ + 1, _, [], _ => rfl
  | fuel + 1, previous, c :: cs, h => by
    have hcs : cs.length ≤ fuel := Nat.le_of_succ_le_succ h
    rw [bindingsAfter, List.length_cons, bindingsFrom, bindingsFrom]
    rcases hscan : (if previous.any isWord then none else scanBinding? (c :: cs)) with
      _ | ⟨name, value, rest⟩ <;> simp only
    · rw [bindingsFrom_eq hcs, bindingsFrom_eq le_rfl]
    · split_ifs at hscan
      have hlt : rest.length < cs.length + 1 := length_lt_of_scanBinding? hscan
      rw [bindingsFrom_eq (by omega), bindingsFrom_eq (by omega)]

theorem bindingsAfter_cons_of_none (h : scanBinding? (c :: cs) = none) :
    bindingsAfter previous (c :: cs) = bindingsAfter (some c) cs := by
  rw [bindingsAfter, List.length_cons, bindingsFrom, h, ite_self]
  rfl

theorem bindingsAfter_of_some {value : List Char} (hprevious : previous.any isWord = false)
    (h : scanBinding? cs = some (name, value, rest)) :
    bindingsAfter previous cs = (name, value) :: bindingsAfter (some '"') rest := by
  have hlt := length_lt_of_scanBinding? h
  rcases cs with _ | ⟨c, cs⟩
  · cases h
  · rw [bindingsAfter, List.length_cons, bindingsFrom, hprevious, if_neg Bool.false_ne_true, h]
    exact congrArg ((name, value) :: ·) (bindingsFrom_eq (Nat.le_of_lt_succ hlt))

/-- Nowhere in `s` does a binding begin, if `u` follows `s`. -/
def Silent (u : List Char) : List Char → Prop
  | [] => True
  | c :: s => scanBinding? (c :: (s ++ u)) = none ∧ Silent u s

namespace Silent

theorem append {x : List Char} (hs : Silent (x ++ u) s) (hx : Silent u x) : Silent u (s ++ x) := by
  induction s with
  | nil => exact hx
  | cons c s ih =>
    rw [List.cons_append]
    exact ⟨by simpa using hs.1, ih hs.2⟩

theorem of_not_mem (h : 'p' ∉ s) : Silent u s := by
  induction s with
  | nil => trivial
  | cons c s ih =>
    rw [List.mem_cons, not_or] at h
    exact ⟨scanBinding?_eq_none (by simp [bindingStart, after?, h.1]), ih h.2⟩

/-- A text without the beginning of a binding is silent, unless one begins at its end. -/
theorem of_startless (h : ¬ bindingStart <:+: s) (hu : ∀ c ∈ u.head?, c ∉ bindingStart.tail) :
    Silent u s := by
  induction s with
  | nil => trivial
  | cons c s ih =>
    exact ⟨scanBinding?_eq_none (after?_of_not_within h (List.cons_ne_nil c s) hu),
      ih fun hs => h (hs.trans (List.suffix_cons c s).isInfix)⟩

theorem closed (h : ¬ bindingStart <:+: s) : Silent u (s ++ ['>']) :=
  append (of_startless h (by simp [bindingStart])) (of_not_mem (by simp))

end Silent

theorem bindingsAfter_silent (h : Silent u s) :
    bindingsAfter previous (s ++ u) = bindingsAfter (s.getLast?.or previous) u := by
  induction s generalizing previous with
  | nil => rfl
  | cons c s ih =>
    rw [List.cons_append, bindingsAfter_cons_of_none h.1, ih h.2, List.getLast?_cons]
    rcases s.getLast? with _ | d <;> rfl

/-! ## Expressions -/

/-- The expressions in a binding that is found in the text. -/
def foundExpressions (name raw : List Char) : List (List Char) :=
  if name = "init".toList then []
  else if name = "text".toList then Interpolation.expressions (bindingText (bindingValue raw))
  else [bindingValue raw]

/-- The expressions that are found in a text after a given character. -/
def expressionsAfter (previous : Option Char) (cs : List Char) : List (List Char) :=
  (bindingsAfter previous cs).flatMap fun (name, raw) => foundExpressions name raw

theorem expressionsAfter_silent (h : Silent u s) :
    expressionsAfter previous (s ++ u) = expressionsAfter (s.getLast?.or previous) u := by
  rw [expressionsAfter, bindingsAfter_silent h, expressionsAfter]

/-- The expressions in an attribute that are evaluated when a page is shown. -/
def attributeExpressions (name value : String) : List (List Char) :=
  if name = String.ofList textBinding then Interpolation.expressions value.toList
  else if (bindingTarget? name).isSome then [value.toList]
  else []

/-- The expressions of an element that are evaluated when a page is shown. -/
def Element.expressions (e : Element) : List (List Char) :=
  e.attributes.flatMap fun (name, value) => attributeExpressions name value

/-- The elements in a piece of markup. -/
def Event.elements (e : Event) : List Element :=
  e.data.filterMap NodeData.element?

/-! ## Attributes -/

/-- A name of a binding that is the same to the search in the text and to the page. -/
structure IsBindingName (name : List Char) : Prop where
  letter : name.head?.any Char.isAlpha = true
  rest : ∀ c ∈ name, isBindingRest c = true
  /-- Branches are no bindings of elements. -/
  branch : String.ofList (lowerCase name) ∉ ["if", "elseif", "else"]
  special : String.ofList (lowerCase name) ∈ ["init", "text"] → lowerCase name = name

/-- The value that a binding is found to have. -/
def foundValue (name raw : List Char) : List Char :=
  if name = "text".toList then bindingText (bindingValue raw) else bindingValue raw

/-- An attribute that either does not mention bindings or looks like one. -/
inductive TagPart.Found : TagPart → Prop
  | other {p : TagPart} : ¬ bindingStart <:+: lowerCase p.source → Found p
  | binding {gap name raw : List Char} : IsBindingName name → '"' ∉ raw →
    foundValue name raw = decodeEntities raw →
    Found (.assigned gap (bindingStart ++ name) ['='] ['"'] raw ['"'])

theorem scanBinding?_binding (hname : IsBindingName name) (hraw : '"' ∉ raw) (u : List Char) :
    scanBinding? (bindingStart ++ (name ++ '=' :: '"' :: (raw ++ '"' :: u))) = some (name, raw, u) := by
  obtain ⟨letter, hrest, -, -⟩ := hname
  rcases name with _ | ⟨c, name⟩
  · cases letter
  have hc : c.isAlpha = true := letter
  have hafter : after? "pado-".toList
      (bindingStart ++ (c :: name ++ '=' :: '"' :: (raw ++ '"' :: u))) =
      some (c :: (name ++ '=' :: '"' :: (raw ++ '"' :: u))) := after?_eq_some_iff.mpr rfl
  obtain ⟨htake, hdrop⟩ := takeWhile_stop (u := '=' :: '"' :: (raw ++ '"' :: u))
    (List.forall_mem_cons.mp hrest).2 (by rw [List.head?_cons]; decide)
  obtain ⟨hvalue, hafter'⟩ := takeWhile_ne hraw u
  have hopen : after? ['=', '"'] ('=' :: '"' :: (raw ++ '"' :: u)) = some (raw ++ '"' :: u) := rfl
  rw [scanBinding?, hafter]
  simp only [if_pos hc, htake, hdrop, hopen, hvalue, hafter']

theorem foundExpressions_eq (hname : IsBindingName name)
    (hraw : foundValue name raw = decodeEntities raw) :
    foundExpressions name raw = attributeExpressions
      (String.ofList (lowerCase (bindingStart ++ name))) (String.ofList (decodeEntities raw)) := by
  have hlower : lowerCase (bindingStart ++ name) = bindingStart ++ lowerCase name := by
    rw [lowerCase, List.map_append]
    rfl
  have hne : lowerCase name ≠ [] := by
    intro hnil
    have hletter := hname.letter
    rw [List.map_eq_nil_iff.mp hnil] at hletter
    cases hletter
  rw [attributeExpressions, hlower, ← hraw]
  by_cases htext : name = "text".toList
  · subst htext
    have hbinding : String.ofList (bindingStart ++ lowerCase "text".toList) =
        String.ofList textBinding := by decide
    have hfound : foundExpressions "text".toList raw =
        Interpolation.expressions (foundValue "text".toList raw) := by
      rw [foundExpressions, if_neg (by decide), if_pos rfl, foundValue, if_pos rfl]
    rw [if_pos hbinding, hfound, String.toList_ofList (l := foundValue "text".toList raw)]
  have hnotText : lowerCase name ≠ "text".toList := by
    intro h
    have hsame := hname.special (by rw [h]; decide)
    exact htext (hsame.symm.trans h)
  have hnotBinding : String.ofList (bindingStart ++ lowerCase name) ≠ String.ofList textBinding := by
    intro h
    exact hnotText (List.append_cancel_left (String.ofList_injective h))
  have htarget : bindingTarget? (String.ofList (bindingStart ++ lowerCase name)) =
      if String.ofList (lowerCase name) ∈ unboundTargets then none
      else some (String.ofList (lowerCase name)) := by
    rw [bindingTarget?, String.toList_ofList, after?_eq_some_iff.mpr rfl]
  rw [if_neg hnotBinding, htarget, foundExpressions, if_neg htext, foundValue, if_neg htext,
    String.toList_ofList (l := bindingValue raw)]
  by_cases hinit : name = "init".toList
  · have hmem : String.ofList (lowerCase name) ∈ unboundTargets := by
      subst hinit
      decide
    rw [if_pos hinit, if_pos hmem]
    rfl
  · have hmem : String.ofList (lowerCase name) ∉ unboundTargets := by
      have hbranch := hname.branch
      have hspecial := hname.special
      have hnil : String.ofList (lowerCase name) ≠ "" := fun h => hne (String.ofList_injective h)
      simp only [unboundTargets, List.mem_cons, List.not_mem_nil, or_false, not_or] at hbranch hspecial ⊢
      refine ⟨hnil, fun h => ?_, fun h => ?_, hbranch⟩
      · exact hnotText (String.ofList_injective h)
      · exact hinit ((hspecial (.inl h)).symm.trans (String.ofList_injective h))
    rw [if_neg hinit, if_neg hmem]
    rfl

theorem not_infix_of_lowerCase (h : ¬ bindingStart <:+: lowerCase cs) : ¬ bindingStart <:+: cs :=
  fun hcs => h (show lowerCase bindingStart <:+: lowerCase cs from hcs.map _)

/-- The end of a name does not continue a text without blanks, brackets and slashes. -/
theorem isTagNameEnd_not_mem {mark : List Char} (hmark : mark.tail.all (fun c => !isTagNameEnd c) = true)
    (hu : u.head?.all isTagNameEnd = true) : ∀ c ∈ u.head?, c ∉ mark.tail := by
  intro c hc hmem
  have := List.all_eq_true.mp hmark c hmem
  rw [hc, Option.all_some] at hu
  rw [hu] at this
  cases this

theorem attributeExpressions_eq_nil {value : String}
    (h : startsWith bindingStart name = false) :
    attributeExpressions (String.ofList name) value = [] := by
  have hne : String.ofList name ≠ String.ofList textBinding := by
    intro heq
    rw [String.ofList_injective heq] at h
    exact absurd h (by decide)
  rw [attributeExpressions, if_neg hne, bindingTarget?_of_startsWith (by rwa [String.toList_ofList])]
  rfl

/-- The expressions of an attribute are found in its text. -/
theorem TagPart.Found.expressionsAfter (h : p.Found) (hp : p.Written) (hu : FollowsAttribute u) :
    ∃ previous', LiveMarkup.expressionsAfter previous (p.source ++ u) =
      attributeExpressions p.asAttribute.1 p.asAttribute.2 ++
        LiveMarkup.expressionsAfter previous' u := by
  cases h with
  | other h =>
    have hname : attributeExpressions p.asAttribute.1 p.asAttribute.2 = [] := by
      have hnot : ∀ {n : List Char}, n <:+: p.source → startsWith bindingStart (lowerCase n) = false := by
        intro n hn
        refine Bool.eq_false_iff.mpr fun hstart => ?_
        obtain ⟨r, hr⟩ := startsWith_iff.mp hstart
        exact h ((hr ▸ List.prefix_append _ _).isInfix.trans (hn.map _))
      rcases p with gap | ⟨gap, name⟩ | ⟨gap, name, link, opening, raw, closing⟩ | source
      · cases hp
      · exact attributeExpressions_eq_nil (hnot ⟨gap, [], by simp [source]⟩)
      · exact attributeExpressions_eq_nil
          (hnot ⟨gap, link ++ opening ++ raw ++ closing, by simp [source]⟩)
      · cases hp
    have hsilent : Silent u p.source :=
      .of_startless (not_infix_of_lowerCase h) (isTagNameEnd_not_mem (by decide) hu.head)
    exact ⟨_, by rw [hname, expressionsAfter_silent hsilent, List.nil_append]⟩
  | @binding gap name raw hname hraw hvalue =>
    obtain ⟨⟨hne, hblank⟩, -⟩ := hp
    refine ⟨some '"', ?_⟩
    have hgap : Silent (bindingStart ++ (name ++ '=' :: '"' :: (raw ++ '"' :: u))) gap := by
      refine .of_not_mem fun hmem => ?_
      have := hblank 'p' hmem
      revert this
      decide
    have hprevious : (gap.getLast?.or previous).any isWord = false := by
      obtain ⟨front, c, rfl⟩ := gap.eq_nil_or_concat.resolve_left hne
      have hc := hblank c (by simp)
      rw [List.concat_eq_append, List.getLast?_concat]
      simp only [isAsciiBlank, Bool.or_eq_true, decide_eq_true_eq] at hc
      rw [Option.some_or, Option.any_some]
      rcases hc with (((rfl | rfl) | rfl) | rfl) | rfl <;> decide
    have hsource : (TagPart.assigned gap (bindingStart ++ name) ['='] ['"'] raw ['"']).source ++ u =
        gap ++ (bindingStart ++ (name ++ '=' :: '"' :: (raw ++ '"' :: u))) := by
      simp [source]
    rw [hsource, expressionsAfter_silent hgap, LiveMarkup.expressionsAfter,
      bindingsAfter_of_some hprevious (scanBinding?_binding hname hraw u), List.flatMap_cons]
    exact congrArg (· ++ LiveMarkup.expressionsAfter (some '"') u) (foundExpressions_eq hname hvalue)

/-! ## Tags -/

/-- A tag whose bindings are found in its text. -/
structure TagText.Found (t : TagText) : Prop where
  written : t.Written
  name : ¬ bindingStart <:+: t.name
  attributes : ∀ p ∈ t.attributes, p.Found
  /-- No attribute is written twice. -/
  names : (t.attributes.map fun p => p.asAttribute.1).Nodup

theorem TagText.Written.attributes_element (h : t.Written)
    (hnames : (t.attributes.map fun p => p.asAttribute.1).Nodup) :
    t.element.attributes = t.attributes.map TagPart.asAttribute := by
  refine foldl_addNew [] (fun a ha => ?_) (by simpa [Function.comp_def] using hnames)
  obtain ⟨p, hp, rfl⟩ := List.mem_map.mp ha
  exact (h.attributes p hp).name_ne

theorem expressions_element (h : t.Found) :
    t.element.expressions =
      t.attributes.flatMap fun p => attributeExpressions p.asAttribute.1 p.asAttribute.2 := by
  rw [Element.expressions, h.written.attributes_element h.names, List.flatMap_map]

/-- After the attributes of a tag stand blanks, and nothing but a slash and a bracket. -/
theorem not_mem_close (hgap : ∀ c ∈ t.gap, isAsciiBlank c = true) (hc : isAsciiBlank c = false)
    (hmark : c ∉ ['/', '>']) : c ∉ t.close := by
  rw [TagText.close, List.mem_append, not_or]
  constructor
  · intro hmem
    rw [hgap c hmem] at hc
    cases hc
  · intro hmem
    split at hmem
    · exact hmark hmem
    · exact hmark (List.mem_cons_of_mem _ hmem)

theorem expressionsAfter_attributes (hps : ∀ p ∈ ps, p.Written) (hfound : ∀ p ∈ ps, p.Found)
    (hgap : ∀ c ∈ t.gap, isAsciiBlank c = true) (u : List Char) : ∀ previous, ∃ previous',
    expressionsAfter previous (ps.flatMap TagPart.source ++ (t.close ++ u)) =
      (ps.flatMap fun p => attributeExpressions p.asAttribute.1 p.asAttribute.2) ++
        expressionsAfter previous' u := by
  induction ps with
  | nil =>
    intro previous
    have hclose : Silent u t.close := .of_not_mem (not_mem_close hgap (by decide) (by decide))
    exact ⟨_, expressionsAfter_silent hclose⟩
  | cons p ps ih =>
    intro previous
    rw [List.forall_mem_cons] at hps hfound
    obtain ⟨between, hp⟩ : ∃ between, LiveMarkup.expressionsAfter previous _ = _ :=
      hfound.1.expressionsAfter hps.1 (followsAttribute hps.2 hgap u)
    obtain ⟨previous', hrest⟩ := ih hps.2 hfound.2 between
    exact ⟨previous', by rw [List.flatMap_cons, List.flatMap_cons, List.append_assoc, hp, hrest,
      List.append_assoc]⟩

/-- The expressions of an element are found in its tag. -/
theorem TagText.Found.expressionsAfter (h : t.Found) (u : List Char) (previous : Option Char) :
    ∃ previous', LiveMarkup.expressionsAfter previous ('<' :: (t.inside ++ u)) =
      t.element.expressions ++ LiveMarkup.expressionsAfter previous' u := by
  have hfollows := followsAttribute h.written.attributes h.written.gap u
  have hname : Silent (t.attributes.flatMap TagPart.source ++ (t.close ++ u)) ('<' :: t.name) := by
    refine Silent.append (s := ['<']) (.of_not_mem (by simp)) ?_
    exact .of_startless h.name (isTagNameEnd_not_mem (by decide) hfollows.head)
  obtain ⟨previous', hattributes⟩ := expressionsAfter_attributes h.written.attributes h.attributes
    h.written.gap u (('<' :: t.name).getLast?.or previous)
  have hsource : '<' :: (t.inside ++ u) =
      '<' :: t.name ++ (t.attributes.flatMap TagPart.source ++ (t.close ++ u)) := by
    simp [TagText.inside]
  exact ⟨previous', by rw [hsource, expressionsAfter_silent hname, hattributes, expressions_element h]⟩

/-! ## Markup -/

/-- Markup in which the bindings that are found in the text are those of the elements. -/
inductive Spelled : List Char → Prop
  | nil : Spelled []
  /-- A piece without elements and without a text that looks like a binding. -/
  | silent {a rest : List Char} {event : Event} : a ≠ [] → Silent rest a →
    readEvent (a ++ rest) = (event, rest) → event.elements = [] → Spelled rest → Spelled (a ++ rest)
  /-- A tag, and the text of the element if it is read together with the tag. -/
  | tag {t : TagText} {s rest : List Char} {event : Event} : t.Found → Silent rest s →
    readEvent ('<' :: (t.inside ++ (s ++ rest))) = (event, rest) → event.elements = [t.element] →
    Spelled rest → Spelled ('<' :: (t.inside ++ (s ++ rest)))

/-- The expressions that are found in the text are those of the elements. -/
theorem Spelled.expressionsAfter_eq (h : Spelled cs) (previous : Option Char) :
    expressionsAfter previous cs =
      (events cs).flatMap fun event => event.elements.flatMap Element.expressions := by
  induction h generalizing previous with
  | nil => rfl
  | silent hne hsilent hread helements _ ih =>
    rw [expressionsAfter_silent hsilent, ih,
      events_of_readEvent (List.append_ne_nil_of_left_ne_nil hne _) hread, List.flatMap_cons,
      helements, List.flatMap_nil, List.nil_append]
  | tag ht hsilent hread helements _ ih =>
    obtain ⟨between, htag⟩ := ht.expressionsAfter _ previous
    rw [htag, expressionsAfter_silent hsilent, ih, events_of_readEvent (by simp) hread,
      List.flatMap_cons, helements, List.flatMap_singleton]

end LiveMarkup
