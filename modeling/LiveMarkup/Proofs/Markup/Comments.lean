import Mathlib
import LiveMarkup.Proofs.Markup.Nodes

/-!
# The weight of the comments in a text

Whether a comment is read at a bracket depends on what stands before it, so the comments of a markup
text are bounded by those that would be read at some bracket (`textWeight`).  Only comments that are
like markers have weight; such a comment is seen in the run of characters of markers after its
bracket (`run?`), and so it can be told locally what changes of the text leave it.

Parsed markup weighs no more than its text (`weigh_parse_le`), and a text that is cut where no
comment is cut weighs at least what its parts weigh (`Shut.textWeight_append`).
-/

namespace LiveMarkup

open Text

/-- Whether a character can stand in a marker between its brackets. -/
def isMark (c : Char) : Bool :=
  isBlank c || c.isAlphanum || c ∈ ['_', ':', '-', '!']

/-- The characters of markers at the start of a text, up to a closing bracket or the end. -/
def run? : List Char → Option (List Char)
  | [] => some []
  | c :: cs => if c = '>' then some ['>'] else if isMark c then (run? cs).map (c :: ·) else none

/-- The comment that stands after a bracket. -/
def commentAfter? (cs : List Char) : Option String :=
  (after? "!--".toList cs).map fun body =>
    String.ofList (((cut? "-->".toList body).map (·.1)).getD body)

section

variable (v : String → Nat)

/-- What the comment weighs that would be read after a bracket. -/
def placeWeight (cs : List Char) : Nat :=
  (((run? cs).bind commentAfter?).map v).getD 0

/-- What the comments weigh that would be read after the brackets of a text. -/
def textWeight : List Char → Nat
  | [] => 0
  | c :: cs => (if c = '<' then placeWeight v cs else 0) + textWeight cs

/-- Only comments that are like markers have weight. -/
def OnMarks : Prop :=
  ∀ s, v s ≠ 0 → ∀ c ∈ s.toList, isMark c = true

end

variable {v : String → Nat} {a b cs r x : List Char} {c : Char}

theorem isPrefix_of_run? (h : run? cs = some r) : r <+: cs := by
  induction cs generalizing r with
  | nil =>
    cases h
    exact List.prefix_rfl
  | cons c cs ih =>
    rw [run?] at h
    split at h
    · rename_i hc
      cases h
      exact hc ▸ ⟨cs, rfl⟩
    · split at h
      · obtain ⟨r, hr, rfl⟩ := Option.map_eq_some_iff.mp h
        exact List.cons_prefix_cons.mpr ⟨rfl, ih hr⟩
      · cases h

theorem isMark_gt : isMark '>' = false := by decide

/-- A run that a character ends. -/
theorem run?_append_cons (ha : ∀ d ∈ a, isMark d = true) (hc : isMark c = false) :
    run? (a ++ c :: b) = if c = '>' then some (a ++ ['>']) else none := by
  induction a with
  | nil => simp [run?, hc]
  | cons d a ih =>
    have hd := ha d List.mem_cons_self
    have hne : d ≠ '>' := by
      rintro rfl
      rw [isMark_gt] at hd
      cases hd
    rw [List.cons_append, run?, if_neg hne, if_pos hd, ih fun e he => ha e (List.mem_cons_of_mem d he)]
    split <;> rfl

theorem run?_eq_self (ha : ∀ d ∈ a, isMark d = true) : run? a = some a := by
  induction a with
  | nil => rfl
  | cons d a ih =>
    have hd := ha d List.mem_cons_self
    have hne : d ≠ '>' := by
      rintro rfl
      rw [isMark_gt] at hd
      cases hd
    rw [run?, if_neg hne, if_pos hd, ih fun e he => ha e (List.mem_cons_of_mem d he)]
    rfl

/-- A run ends inside a text, or all of the text is in it. -/
theorem run?_cases (cs : List Char) : (∀ b, run? (cs ++ b) = run? cs) ∨
    (∀ d ∈ cs, isMark d = true) ∧ ∀ b, run? (cs ++ b) = (run? b).map (cs ++ ·) := by
  induction cs with
  | nil => exact .inr ⟨fun _ h => absurd h List.not_mem_nil, fun b => by simp⟩
  | cons c cs ih =>
    by_cases hgt : c = '>'
    · exact .inl fun b => by rw [List.cons_append, run?, run?, if_pos hgt, if_pos hgt]
    · by_cases hc : isMark c = true
      · refine ih.imp (fun h b => ?_) fun h => ⟨?_, fun b => ?_⟩
        · rw [List.cons_append, run?, run?, h b]
        · exact List.forall_mem_cons.mpr ⟨hc, h.1⟩
        · rw [List.cons_append, run?, if_neg hgt, if_pos hc, h.2 b, Option.map_map]
          rfl
      · exact .inl fun b => by
          rw [List.cons_append, run?, run?, if_neg hgt, if_neg hgt, if_neg hc, if_neg hc]

theorem run?_append_eq_none (ha : '>' ∉ a) (hc : isMark c = false) (hgt : c ≠ '>') :
    run? (a ++ c :: b) = none := by
  induction a with
  | nil => simp [run?, hc, hgt]
  | cons d a ih =>
    rw [List.mem_cons, not_or] at ha
    rw [List.cons_append, run?, if_neg (Ne.symm ha.1), ih ha.2]
    split <;> rfl

theorem textWeight_append_of_not_mem (ha : '<' ∉ a) : textWeight v (a ++ b) = textWeight v b := by
  induction a with
  | nil => rfl
  | cons c a ih =>
    rw [List.mem_cons, not_or] at ha
    rw [List.cons_append, textWeight, if_neg (Ne.symm ha.1), ih ha.2, Nat.zero_add]

theorem textWeight_le_append (a b : List Char) : textWeight v b ≤ textWeight v (a ++ b) := by
  induction a with
  | nil => exact le_rfl
  | cons c a ih => exact ih.trans (Nat.le_add_left _ _)

theorem textWeight_le_of_suffix (h : a <:+ b) : textWeight v a ≤ textWeight v b := by
  obtain ⟨x, rfl⟩ := h
  exact textWeight_le_append x a

/-! ## Comments that are read -/

/-- A comment ends at the first place where the mark of its end stands. -/
theorem cut?_append_of_not_infix (h : ¬ "-->".toList <:+: a) (b : List Char) :
    cut? "-->".toList (a ++ ("-->".toList ++ b)) = some (a, b) := by
  induction a with
  | nil => rfl
  | cons c a ih =>
    have hnone : after? "-->".toList (c :: a ++ ("-->".toList ++ b)) = none := by
      rcases hr : after? "-->".toList (c :: a ++ ("-->".toList ++ b)) with _ | rest
      · rfl
      · have heq := after?_eq_some_iff.mp hr
        rcases a with _ | ⟨d, _ | ⟨e, a⟩⟩
        · simp at heq
        · simp at heq
        · refine absurd ⟨[], a, ?_⟩ h
          simp at heq ⊢
          exact ⟨heq.1.symm, heq.2.1.symm, heq.2.2.1.symm⟩
    have htail : ¬ "-->".toList <:+: a := fun hi => h (hi.trans (List.suffix_cons c a).isInfix)
    rw [List.cons_append, cut?, ← List.cons_append, hnone, ih htail]
    rfl

theorem cut?_append (hs : '>' ∉ a) : cut? "-->".toList (a ++ ("-->".toList ++ b)) = some (a, b) :=
  cut?_append_of_not_infix (fun h => hs (h.subset (by decide))) b

theorem cut?_eq_none (h : ¬ "-->".toList <:+: a) : cut? "-->".toList a = none := by
  rcases hcut : cut? "-->".toList a with _ | ⟨x, y⟩
  · rfl
  · exact absurd ⟨x, y, (cut_eq hcut).symm⟩ h

/-- A comment that is read after a bracket weighs what it would weigh in the run alone. -/
theorem comment_le (hv : OnMarks v) (body : List Char) :
    v (String.ofList (((cut? "-->".toList body).map (·.1)).getD body)) ≤
      placeWeight v ("!--".toList ++ body) := by
  generalize hs : ((cut? "-->".toList body).map (·.1)).getD body = s
  by_cases h0 : v (String.ofList s) = 0
  · rw [h0]
    exact Nat.zero_le _
  · have hmarks := hv _ h0
    rw [String.toList_ofList] at hmarks
    have hgt : '>' ∉ s := fun h => by
      have := hmarks _ h
      rw [isMark_gt] at this
      cases this
    have hopen : ∀ d ∈ "!--".toList, isMark d = true := List.all_eq_true.mp (by decide)
    rcases hcut : cut? "-->".toList body with _ | ⟨s', rest⟩ <;> rw [hcut] at hs
    · obtain rfl : body = s := hs
      have hrun : run? ("!--".toList ++ body) = some ("!--".toList ++ body) :=
        run?_eq_self fun d hd => (List.mem_append.mp hd).elim (hopen d) (hmarks d)
      rw [placeWeight, hrun, Option.bind_some, commentAfter?, after?_eq_some_iff.mpr rfl,
        Option.map_some, Option.map_some, Option.getD_some, hcut]
      exact le_rfl
    · obtain rfl : s' = s := hs
      have hbody := cut_eq hcut
      have hall : ∀ d ∈ "!--".toList ++ (s' ++ "--".toList), isMark d = true := fun d hd => by
        rcases List.mem_append.mp hd with hd | hd
        · exact hopen d hd
        · rcases List.mem_append.mp hd with hd | hd
          · exact hmarks d hd
          · exact List.all_eq_true.mp (by decide : "--".toList.all isMark = true) d hd
      have hrun : run? ("!--".toList ++ body) = some ("!--".toList ++ (s' ++ ("-->".toList ++ []))) := by
        have := run?_append_cons (b := rest) hall isMark_gt
        rw [if_pos rfl] at this
        rw [hbody]
        simpa using this
      rw [placeWeight, hrun, Option.bind_some, commentAfter?, after?_eq_some_iff.mpr rfl,
        Option.map_some, cut?_append hgt, Option.map_some, Option.getD_some, Option.map_some,
        Option.getD_some]

/-! ## Parsed markup -/

theorem scanAttributeName_suffix : ∀ cs : List Char, (scanAttributeName cs).2 <:+ cs := by
  intro cs
  induction cs using scanAttributeName.induct with
  | case1 => exact List.suffix_rfl
  | case2 cs => exact List.suffix_rfl
  | case3 c cs hne h =>
    simp only [scanAttributeName.eq_3 c cs hne, if_pos h]
    exact List.suffix_rfl
  | case4 c cs hne h _ _ _ ih =>
    rw [scanAttributeName.eq_3 c cs hne, if_neg h]
    exact ih.trans (List.suffix_cons c cs)

theorem scanAttributeValue_suffix (cs : List Char) : (scanAttributeValue cs).2 <:+ cs := by
  unfold scanAttributeValue
  split
  · exact List.nil_suffix
  · rename_i q r hq
    have hr : q :: r <:+ cs := hq ▸ List.dropWhile_suffix _
    split
    · exact (List.drop_suffix _ _).trans
        ((List.dropWhile_suffix _).trans ((List.suffix_cons q r).trans hr))
    · exact (List.dropWhile_suffix _).trans hr

theorem scanAttribute_suffix (cs : List Char) : (scanAttribute cs).2.2 <:+ cs := by
  unfold scanAttribute
  simp only
  split
  · rename_i r hr
    exact (scanAttributeValue_suffix r).trans ((hr ▸ List.suffix_cons '=' r).trans
      ((List.dropWhile_suffix _).trans (scanAttributeName_suffix cs)))
  · exact scanAttributeName_suffix cs

theorem scanAttributes_suffix : ∀ (fuel : Nat) (attributes : List (String × String)) (cs : List Char),
    (scanAttributes fuel attributes cs).2.2 <:+ cs
  | 0, _, _ => List.suffix_rfl
  | fuel + 1, attributes, cs => by
    have hcs : cs.dropWhile isAsciiBlank <:+ cs := List.dropWhile_suffix _
    unfold scanAttributes
    split
    · exact List.nil_suffix
    · rename_i r hr
      exact (hr ▸ List.suffix_cons '>' r).trans hcs
    · rename_i r hr
      exact (List.suffix_cons '>' r).trans ((hr ▸ List.suffix_cons '/' ('>' :: r)).trans hcs)
    · rename_i r _ hr
      exact (scanAttributes_suffix fuel _ r).trans ((hr ▸ List.suffix_cons '/' r).trans hcs)
    · exact (scanAttributes_suffix fuel _ _).trans ((scanAttribute_suffix _).trans hcs)

theorem scanRaw_suffix (closing : List Char) : ∀ cs : List Char, (scanRaw closing cs).2 <:+ cs
  | [] => List.suffix_rfl
  | c :: cs => by
    rw [scanRaw]
    split
    · exact List.suffix_rfl
    · exact (scanRaw_suffix closing cs).trans (List.suffix_cons c cs)

theorem scanToTagEnd_suffix (cs : List Char) : (scanToTagEnd cs).2 <:+ cs :=
  (List.drop_suffix _ _).trans (List.dropWhile_suffix _)

theorem readElement_suffix (cs : List Char) : (readElement cs).2 <:+ cs := by
  unfold readElement
  simp only
  have hrest : ∀ attributes, (scanAttributes
      ((cs.dropWhile fun c => !(isAsciiBlank c || decide (c = '>') || decide (c = '/'))).length + 1)
      attributes (cs.dropWhile fun c =>
        !(isAsciiBlank c || decide (c = '>') || decide (c = '/')))).2.2 <:+ cs := fun attributes =>
    (scanAttributes_suffix _ _ _).trans (List.dropWhile_suffix _)
  split
  · exact hrest []
  · split
    · exact (scanToTagEnd_suffix _).trans ((scanRaw_suffix _ _).trans (hrest []))
    · exact hrest []

/-- A piece weighs no more than the text that it is read from. -/
theorem readEvent_weight (hv : OnMarks v) (cs : List Char) :
    ((readEvent cs).1.data.map (NodeData.weight v)).sum + textWeight v (readEvent cs).2 ≤
      textWeight v cs := by
  have hleaf : ∀ (data : NodeData) (rest : List Char), NodeData.weight v data = 0 → rest <:+ cs →
      ((Event.whole (.leaf data)).data.map (NodeData.weight v)).sum + textWeight v rest ≤
        textWeight v cs := fun data rest h0 hrest => by
    rw [data_leaf, List.map_singleton, List.sum_singleton, h0, Nat.zero_add]
    exact textWeight_le_of_suffix hrest
  unfold readEvent
  split
  · rename_i body
    have hplace := comment_le hv body
    have hsum : placeWeight v ("!--".toList ++ body) + textWeight v body ≤
        textWeight v ('<' :: '!' :: '-' :: '-' :: body) := by
      rw [textWeight, if_pos rfl]
      exact Nat.add_le_add_left (textWeight_le_append ['!', '-', '-'] body) _
    split
    · rename_i s rest hcut
      have hrest : rest <:+ body := by
        rw [cut_eq hcut]
        exact List.suffix_append _ _
      rw [hcut, Option.map_some, Option.getD_some] at hplace
      rw [data_leaf, List.map_singleton, List.sum_singleton]
      exact (Nat.add_le_add hplace (textWeight_le_of_suffix hrest)).trans hsum
    · rename_i hcut
      rw [hcut, Option.map_none, Option.getD_none] at hplace
      rw [data_leaf, List.map_singleton, List.sum_singleton]
      exact (Nat.add_le_add hplace (Nat.zero_le _)).trans hsum
  · exact hleaf _ _ rfl ((scanToTagEnd_suffix _).trans
      ((List.suffix_cons '!' _).trans (List.suffix_cons '<' _)))
  · rename_i body
    rw [Event.data, List.map_nil, List.sum_nil, Nat.zero_add]
    exact textWeight_le_of_suffix ((scanToTagEnd_suffix _).trans
      ((List.suffix_cons '/' _).trans (List.suffix_cons '<' _)))
  · rename_i rest _ _ _
    split
    · have h0 : ((readElement rest).1.data.map (NodeData.weight v)).sum = 0 := by
        obtain ⟨e, -, he⟩ := data_readElement rest
        refine Nat.eq_zero_of_not_pos fun hpos => ?_
        obtain ⟨n, hn, hn0⟩ := List.sum_pos_iff_exists_pos_nat.mp hpos
        obtain ⟨data, hdata, rfl⟩ := List.mem_map.mp hn
        rcases he data hdata with rfl | ⟨s, rfl⟩ <;> exact absurd hn0 (lt_irrefl 0)
      rw [h0, Nat.zero_add]
      exact textWeight_le_of_suffix ((readElement_suffix rest).trans (List.suffix_cons '<' rest))
    · exact hleaf _ _ rfl (List.suffix_cons '<' rest)
  · exact hleaf _ _ rfl (List.dropWhile_suffix _)

/-- Parsed markup weighs no more than its text. -/
theorem weigh_parse_le (hv : OnMarks v) (cs : List Char) :
    (Forest.ofTrees (Tree.parse cs)).weigh (NodeData.weight v) ≤ textWeight v cs := by
  have hfrom : ∀ (fuel : Nat) (cs : List Char),
      ((eventsFrom fuel cs).map fun event => (event.data.map (NodeData.weight v)).sum).sum ≤
        textWeight v cs := by
    intro fuel
    induction fuel with
    | zero => exact fun _ => Nat.zero_le _
    | succ fuel ih =>
      intro cs
      rcases cs with _ | ⟨c, cs⟩
      · exact Nat.zero_le _
      · rw [eventsFrom, List.map_cons, List.sum_cons]
        · exact (Nat.add_le_add_left (ih _) _).trans (readEvent_weight hv (c :: cs))
        · simp
  rw [weigh_parse]
  exact hfrom _ cs

/-! ## Texts that are cut -/

/-- Every comment that opens in a text is closed after characters of markers. -/
def Shut : List Char → Prop
  | [] => True
  | c :: cs =>
    (c = '<' → startsWith "!--".toList cs = true → ∃ r, run? cs = some r ∧ '>' ∈ r) ∧ Shut cs

theorem Shut.suffix (h : Shut (a ++ b)) : Shut b := by
  induction a with
  | nil => exact h
  | cons c a ih => exact ih h.2

theorem placeWeight_eq_zero (h : startsWith "!--".toList cs = false) : placeWeight v cs = 0 := by
  unfold placeWeight
  rcases hr : run? cs with _ | r
  · rfl
  · obtain ⟨x, rfl⟩ := isPrefix_of_run? hr
    have : after? "!--".toList r = none := by
      rcases ha : after? "!--".toList r with _ | body
      · rfl
      · rw [after?_eq_some_iff.mp ha, startsWith, List.append_assoc, after?_eq_some_iff.mpr rfl] at h
        cases h
    rw [Option.bind_some, commentAfter?, this]
    rfl

/-- A text that is cut where no run is closed weighs at least what its parts weigh. -/
theorem Shut.cut (h : Shut (a ++ b)) (hb : ∀ r, run? b = some r → '>' ∉ r) :
    Shut a ∧ textWeight v a + textWeight v b ≤ textWeight v (a ++ b) := by
  induction a with
  | nil => exact ⟨trivial, (Nat.zero_add _).le⟩
  | cons c a ih =>
    obtain ⟨h1, h2⟩ := ih h.2
    have hclosed : c = '<' → startsWith "!--".toList (a ++ b) = true →
        ∃ r, run? (a ++ b) = some r ∧ '>' ∈ r := h.1
    have hext : startsWith "!--".toList a = true → startsWith "!--".toList (a ++ b) = true :=
      fun hstart => by
        obtain ⟨body, hbody⟩ := Option.isSome_iff_exists.mp hstart
        rw [after?_eq_some_iff.mp hbody, startsWith, List.append_assoc, after?_eq_some_iff.mpr rfl]
        rfl
    have hkey : c = '<' → startsWith "!--".toList a = true →
        ∀ b', run? (a ++ b') = run? a := fun hc hstart => by
      refine (run?_cases a).resolve_right fun hall => ?_
      obtain ⟨r, hr, hgt⟩ := hclosed hc (hext hstart)
      rw [hall.2 b] at hr
      obtain ⟨r', hr', rfl⟩ := Option.map_eq_some_iff.mp hr
      rcases List.mem_append.mp hgt with hgt | hgt
      · have := hall.1 _ hgt
        rw [isMark_gt] at this
        cases this
      · exact hb r' hr' hgt
    refine ⟨⟨fun hc hstart => ?_, h1⟩, ?_⟩
    · rw [← hkey hc hstart b]
      exact hclosed hc (hext hstart)
    · rw [List.cons_append, textWeight, textWeight, Nat.add_assoc]
      refine Nat.add_le_add ?_ h2
      split
      · rename_i hc
        rcases hstart : startsWith "!--".toList a with _ | _
        · rw [placeWeight_eq_zero hstart]
          exact Nat.zero_le _
        · rw [placeWeight, placeWeight, hkey hc hstart b]
      · exact le_rfl

end LiveMarkup
