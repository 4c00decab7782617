import Mathlib
import LiveMarkup.Proofs.Markup.Comments
import LiveMarkup.Proofs.Markup.Escaping
import LiveMarkup.Proofs.Template.Completion
import LiveMarkup.Proofs.Text.Trim

/-!
# Rewriting makes no comments

A text stays below another one if its comments weigh no more and no run of characters of markers
reads otherwise (`Below`).  Whatever follows, binding the expressions of markup keeps a text below
itself (`refines_bindMarkup`), and so does replacing its references to classes
(`refines_scopeClasses`).  The blocks of a group together weigh no more than the text that they are
cut out of (`blocks_weight`).
-/

namespace LiveMarkup

open Text

/-- The comments of a text weigh no more than those of another, and its first run is that of the
other, if it has one. -/
structure Below (new old : List Char) : Prop where
  weight : ∀ v, textWeight v new ≤ textWeight v old
  run : run? new = none ∨ run? new = run? old

/-- A text can stand in place of another one, whatever follows. -/
def Refines (new old : List Char) : Prop :=
  ∀ u v, Below u v → Below (new ++ u) (old ++ v)

variable {a b cs new old new' old' u w x y name : List Char} {c : Char}

namespace Below

theorem refl (cs : List Char) : Below cs cs :=
  ⟨fun _ => le_rfl, .inr rfl⟩

theorem trans (h : Below a b) (h' : Below b cs) : Below a cs := by
  refine ⟨fun v => (h.weight v).trans (h'.weight v), ?_⟩
  rcases h.run with h1 | h1
  · exact .inl h1
  · rcases h'.run with h2 | h2
    · exact .inl (h1.trans h2)
    · exact .inr (h1.trans h2)

theorem cons (c : Char) (h : Below u w) : Below (c :: u) (c :: w) := by
  refine ⟨fun v => Nat.add_le_add ?_ (h.weight v), ?_⟩
  · split
    · rcases h.run with hr | hr
      · rw [placeWeight, hr]
        exact Nat.zero_le _
      · rw [placeWeight, placeWeight, hr]
    · exact le_rfl
  · rw [run?, run?]
    split
    · exact .inr rfl
    · split
      · exact h.run.imp (fun hr => by rw [hr]; rfl) fun hr => by rw [hr]
      · exact .inl rfl

theorem append (x : List Char) (h : Below u w) : Below (x ++ u) (x ++ w) := by
  induction x with
  | nil => exact h
  | cons c x ih => exact ih.cons c

/-- A text that begins with a run that nothing closes only has to weigh no more. -/
theorem of_run (hr : run? u = none) (h : ∀ v, textWeight v u ≤ textWeight v w) : Below u w :=
  ⟨h, .inl hr⟩

/-- A character that no marker has, and no bracket, may come before. -/
theorem insert (hc : isMark c = false) (hgt : c ≠ '>') (hlt : c ≠ '<')
    (h : ∀ v, textWeight v u ≤ textWeight v w) : Below (c :: u) w := by
  refine of_run (by simp [run?, hc, hgt]) fun v => ?_
  rw [textWeight, if_neg hlt, Nat.zero_add]
  exact h v

end Below

namespace Refines

theorem refl (x : List Char) : Refines x x :=
  fun _ _ h => h.append x

theorem append (h : Refines new old) (h' : Refines new' old') : Refines (new ++ new') (old ++ old') :=
  fun u v huv => by
    rw [List.append_assoc, List.append_assoc]
    exact h _ _ (h' u v huv)

theorem below (h : Refines new old) : Below new old := by
  have := h [] [] (.refl [])
  rwa [List.append_nil, List.append_nil] at this

end Refines

/-! ## Escaping -/

theorem referenceOf_eq (hc : c ∈ ['&', '<', '>', '"', '\'']) :
    ∃ r, referenceOf c = '&' :: r ∧ '<' ∉ r := by
  simp only [List.mem_cons, List.not_mem_nil, or_false] at hc
  rcases hc with rfl | rfl | rfl | rfl | rfl
  · exact ⟨"amp;".toList, by decide, by decide⟩
  · exact ⟨"lt;".toList, by decide, by decide⟩
  · exact ⟨"gt;".toList, by decide, by decide⟩
  · exact ⟨"quot;".toList, by decide, by decide⟩
  · exact ⟨"#39;".toList, by decide, by decide⟩

theorem refines_escape {special : List Char} (h : ∀ c ∈ special, c ∈ ['&', '<', '>', '"', '\'']) :
    ∀ cs : List Char, Refines (escape special cs) cs
  | [] => .refl []
  | c :: cs => fun u w huw => by
    have hcs := refines_escape h cs u w huw
    rw [escape_cons, List.append_assoc]
    split
    · rename_i hc
      obtain ⟨r, hr, hlt⟩ := referenceOf_eq (h c hc)
      rw [hr, List.cons_append]
      refine .insert (by decide) (by decide) (by decide) fun v => ?_
      rw [textWeight_append_of_not_mem hlt]
      exact (hcs.weight v).trans (textWeight_le_append [c] _)
    · exact hcs.cons c

theorem refines_escapeQuote (cs : List Char) : Refines (escapeQuote cs) cs :=
  refines_escape (by simp) cs

/-! ## Scanners of templates -/

theorem scanGroup_eq {depth : Nat} {quote : Option Char} (h : scanGroup depth quote cs = some (a, b)) :
    cs = a ++ b := by
  induction depth, quote, cs using scanGroup.induct generalizing a b with
  | case1 => simp [scanGroup] at h
  | case2 depth q c cs ih =>
    simp only [scanGroup, Option.map_eq_some_iff] at h
    obtain ⟨⟨a', b'⟩, h', he⟩ := h
    cases he
    simp [ih h']
  | case3 depth q c cs hne ih =>
    rw [scanGroup.eq_3 _ _ _ _ hne, Option.map_eq_some_iff] at h
    obtain ⟨⟨a', b'⟩, h', he⟩ := h
    cases he
    simp [ih h']
  | case4 depth cs hd =>
    simp only [scanGroup, ↓reduceIte, hd] at h
    cases h
    rfl
  | case5 depth cs hd ih =>
    simp only [scanGroup, ↓reduceIte, hd, Option.map_eq_some_iff] at h
    obtain ⟨⟨a', b'⟩, h', he⟩ := h
    cases he
    simp [ih h']
  | case6 depth cs hne ih =>
    simp only [scanGroup, hne, ↓reduceIte, Option.map_eq_some_iff] at h
    obtain ⟨⟨a', b'⟩, h', he⟩ := h
    cases he
    simp [ih h']
  | case7 depth c cs h1 h2 ih =>
    simp only [scanGroup, h1, h2, ↓reduceIte, Option.map_eq_some_iff] at h
    obtain ⟨⟨a', b'⟩, h', he⟩ := h
    cases he
    simp [ih h']

theorem braceGroup?_eq (h : braceGroup? cs = some (a, b)) : cs = a ++ b := by
  unfold braceGroup? at h
  split at h
  · obtain ⟨⟨a', b'⟩, h', he⟩ := Option.map_eq_some_iff.mp h
    cases he
    rw [scanGroup_eq h']
    rfl
  · cases h

theorem scanText_eq : ∀ (fuel : Nat) (cs : List Char), cs = (scanText fuel cs).1 ++ (scanText fuel cs).2
  | 0, _ => rfl
  | _ + 1, [] => rfl
  | fuel + 1, c :: cs => by
    rw [scanText]
    split
    · rfl
    · split
      · rename_i group rest h
        rw [List.append_assoc, ← scanText_eq fuel rest]
        exact braceGroup?_eq h
      · rw [List.cons_append, ← scanText_eq fuel cs]

theorem scanTag_eq {fuel : Nat} {quote : Option Char} (h : scanTag fuel quote cs = some (a, b)) :
    cs = a ++ b := by
  induction fuel generalizing quote cs a b with
  | zero => cases h
  | succ fuel ih =>
    rcases cs with _ | ⟨c, cs⟩
    · cases quote <;> cases h
    · rcases quote with _ | q
      · rw [scanTag] at h
        split at h
        · cases h
          rfl
        · split at h
          · obtain ⟨⟨a', b'⟩, h', he⟩ := Option.map_eq_some_iff.mp h
            cases he
            rw [ih h']
            rfl
          · split at h
            · rename_i group rest hg
              obtain ⟨⟨a', b'⟩, h', he⟩ := Option.map_eq_some_iff.mp h
              cases he
              rw [braceGroup?_eq hg, ih h', List.append_assoc]
            · obtain ⟨⟨a', b'⟩, h', he⟩ := Option.map_eq_some_iff.mp h
              cases he
              rw [ih h']
              rfl
      · rw [scanTag] at h
        obtain ⟨⟨a', b'⟩, h', he⟩ := Option.map_eq_some_iff.mp h
        cases he
        rw [ih h']
        rfl

theorem scanToEndTag?_eq (h : scanToEndTag? name cs = some (a, b)) : cs = a ++ b := by
  induction cs generalizing a with
  | nil => cases h
  | cons c cs ih =>
    rw [scanToEndTag?] at h
    split at h
    · cases h
      rfl
    · obtain ⟨⟨a', b'⟩, h', he⟩ := Option.map_eq_some_iff.mp h
      cases he
      rw [ih h']
      rfl

theorem isInfix_of_singleExpression? (h : singleExpression? cs = some x) : x <:+: cs := by
  unfold singleExpression? at h
  split at h
  · rename_i group hg
    cases h
    have hgroup : trim cs = group := by simpa using braceGroup?_eq hg
    have h1 : (group.drop 1).dropLast <:+: group :=
      (List.dropLast_prefix _).isInfix.trans (List.drop_suffix _ _).isInfix
    exact h1.trans (hgroup ▸ isInfix_trim cs)
  · cases h

/-! ## Tags -/

theorem scanAttributeName_eq : ∀ cs : List Char,
    cs = (scanAttributeName cs).1 ++ (scanAttributeName cs).2 ∧ '>' ∉ (scanAttributeName cs).1 := by
  intro cs
  induction cs using scanAttributeName.induct with
  | case1 => exact ⟨rfl, List.not_mem_nil⟩
  | case2 cs => exact ⟨rfl, List.not_mem_nil⟩
  | case3 c cs hne h =>
    rw [scanAttributeName.eq_3 c cs hne, if_pos h]
    exact ⟨rfl, List.not_mem_nil⟩
  | case4 c cs hne h _ _ _ ih =>
    rw [scanAttributeName.eq_3 c cs hne, if_neg h]
    refine ⟨congrArg (c :: ·) ih.1, ?_⟩
    rw [List.mem_cons, not_or]
    refine ⟨?_, ih.2⟩
    rintro rfl
    simp at h

theorem scanTagValue_eq (cs : List Char) : cs = (scanTagValue cs).1 ++ (scanTagValue cs).2.1 ++
    (scanTagValue cs).2.2.1 ++ (scanTagValue cs).2.2.2 := by
  unfold scanTagValue
  split
  · rfl
  · rename_i c r
    split
    · simp only [List.append_assoc, List.take_append_drop, List.takeWhile_append_dropWhile]
      rfl
    · split
      · rename_i group rest h
        simpa using braceGroup?_eq h
      · simp only [List.nil_append, List.append_nil, List.takeWhile_append_dropWhile]

/-- The name of an assigned attribute does not end the tag, and the sign of equality follows. -/
def TagPart.Assigns : TagPart → Prop
  | assigned _ name link _ _ _ => '>' ∉ name ∧ ∃ a b, link = a ++ '=' :: b
  | _ => True

theorem tagParts_eq : ∀ (fuel : Nat) (cs : List Char),
    (tagParts fuel cs).flatMap TagPart.source = cs ∧ ∀ p ∈ tagParts fuel cs, p.Assigns
  | 0, cs => by simp [tagParts, TagPart.source, TagPart.Assigns]
  | fuel + 1, cs => by
    have hcs : cs.takeWhile isAsciiBlank ++ cs.dropWhile isAsciiBlank = cs :=
      List.takeWhile_append_dropWhile
    unfold tagParts
    simp only
    split
    · simp [TagPart.source, TagPart.Assigns]
    · simp [TagPart.source, TagPart.Assigns]
    · simp [TagPart.source, TagPart.Assigns]
    · rename_i r _ hr
      obtain ⟨h1, h2⟩ := tagParts_eq fuel r
      refine ⟨?_, List.forall_mem_cons.mpr ⟨trivial, h2⟩⟩
      rw [List.flatMap_cons, h1, TagPart.source, List.append_assoc]
      exact (congrArg _ hr).symm.trans hcs
    · obtain ⟨hname, hgt⟩ := scanAttributeName_eq (cs.dropWhile isAsciiBlank)
      set name := (scanAttributeName (cs.dropWhile isAsciiBlank)).1
      set r := (scanAttributeName (cs.dropWhile isAsciiBlank)).2
      split
      · rename_i v hv
        have hvalue := scanTagValue_eq (v.dropWhile isAsciiBlank)
        obtain ⟨h1, h2⟩ := tagParts_eq fuel (scanTagValue (v.dropWhile isAsciiBlank)).2.2.2
        refine ⟨?_, List.forall_mem_cons.mpr ⟨⟨hgt, _, _, rfl⟩, h2⟩⟩
        rw [List.flatMap_cons, h1, TagPart.source]
        conv_rhs => rw [← hcs, hname, ← List.takeWhile_append_dropWhile (p := isAsciiBlank) (l := r),
          hv, ← List.takeWhile_append_dropWhile (p := isAsciiBlank) (l := v), hvalue]
        simp only [List.append_assoc, List.cons_append]
      · obtain ⟨h1, h2⟩ := tagParts_eq fuel r
        refine ⟨?_, List.forall_mem_cons.mpr ⟨trivial, h2⟩⟩
        rw [List.flatMap_cons, h1, TagPart.source, List.append_assoc, ← hname, hcs]

theorem below_value (link opening closing : List Char) {raw : List Char} (hx : x <:+: raw) (h : Below u w) :
    Below ('=' :: '"' :: escapeQuote x ++ '"' :: u) (link ++ (opening ++ (raw ++ (closing ++ w)))) := by
  obtain ⟨p, q, rfl⟩ := hx
  have hq : Below ('"' :: u) (q ++ (closing ++ w)) :=
    .insert (by decide) (by decide) (by decide) fun v =>
      (h.weight v).trans ((textWeight_le_append _ _).trans (textWeight_le_append _ _))
  have hx := refines_escapeQuote x _ _ hq
  have hweight : ∀ v, textWeight v ('"' :: escapeQuote x ++ '"' :: u) ≤
      textWeight v (link ++ (opening ++ (p ++ x ++ q ++ (closing ++ w)))) := fun v => by
    rw [List.cons_append, textWeight, if_neg (by decide), Nat.zero_add]
    refine (hx.weight v).trans (textWeight_le_of_suffix ⟨link ++ (opening ++ p), ?_⟩)
    simp only [List.append_assoc]
  exact .insert (by decide) (by decide) (by decide) hweight

theorem refines_withBinding {p : TagPart} (hp : p.Assigns) : Refines p.withBinding p.source := by
  rcases p with gap | ⟨gap, name⟩ | ⟨gap, name, link, opening, raw, closing⟩ | source
  · exact .refl _
  · exact .refl _
  · unfold TagPart.withBinding
    simp only
    split
    · rename_i e he
      split
      · split
        · rename_i h0
          subst h0
          intro u w h
          have := ((below_value link [] closing (List.infix_refl raw) h).append name).append gap
          simpa only [TagPart.source, List.append_assoc, List.cons_append, List.nil_append] using this
        · exact .refl _
      · split
        · exact .refl _
        · intro u w h
          have hvalue := below_value link opening closing
            ((isInfix_trim e).trans (isInfix_of_singleExpression? he)) h
          have hname := hvalue.append name
          have hrun : run? (bindingStart ++ (name ++ ('=' :: '"' :: escapeQuote (trim e) ++ '"' :: u))) =
              none := by
            rw [← List.append_assoc]
            refine run?_append_eq_none ?_ (by decide) (by decide)
            rw [List.mem_append, not_or]
            exact ⟨by decide, hp.1⟩
          have hbound : Below (bindingStart ++ (name ++ ('=' :: '"' :: escapeQuote (trim e) ++ '"' :: u)))
              (name ++ (link ++ (opening ++ (raw ++ (closing ++ w))))) :=
            .of_run hrun fun v => by
              rw [textWeight_append_of_not_mem (by decide)]
              exact hname.weight v
          simpa only [TagPart.source, List.append_assoc, List.cons_append, List.nil_append]
            using hbound.append gap
    · exact .refl _
  · exact .refl _

theorem refines_ofSource (source : List Char) : Refines (StartTag.ofSource source).source source := by
  have hparts : ∀ ps : List TagPart, (∀ p ∈ ps, p.Assigns) →
      Refines (ps.flatMap TagPart.withBinding) (ps.flatMap TagPart.source) := by
    intro ps hps
    induction ps with
    | nil => exact .refl []
    | cons p ps ih =>
      rw [List.flatMap_cons, List.flatMap_cons]
      exact (refines_withBinding (hps p List.mem_cons_self)).append
        (ih fun q hq => hps q (List.mem_cons_of_mem p hq))
  unfold StartTag.ofSource
  simp only
  set isPart := fun c : Char => !(isAsciiBlank c || decide (c = '>') || decide (c = '/'))
  set rest := (source.drop 1).dropWhile isPart with hrest
  obtain ⟨h1, h2⟩ := tagParts_eq source.length rest
  have hsource : source.take 1 ++ (source.drop 1).takeWhile isPart ++ rest = source := by
    rw [List.append_assoc, hrest, List.takeWhile_append_dropWhile, List.take_append_drop]
  have h := (Refines.refl (source.take 1 ++ (source.drop 1).takeWhile isPart)).append (hparts _ h2)
  rwa [h1, hsource] at h

/-! ## Markup -/

theorem textWeight_textAttribute (v : String → Nat) (cs t : List Char) :
    textWeight v (textAttribute cs ++ t) = textWeight v t := by
  refine textWeight_append_of_not_mem ?_
  have h := not_mem_escapeAll (.inl rfl) (trim cs)
  simp only [textAttribute, List.cons_append, List.mem_cons, List.mem_append, not_or,
    List.not_mem_nil, not_false_iff, and_true]
  exact ⟨by decide, ⟨by decide, by decide, by decide, h⟩, by decide⟩

theorem run?_textAttribute (cs t : List Char) : run? (textAttribute cs ++ t) = none := by
  have h : textAttribute cs ++ t = (' ' :: textBinding) ++ '=' :: ('"' :: escapeAll (trim cs) ++ ['"'] ++ t) := by
    simp [textAttribute]
  rw [h]
  exact run?_append_eq_none (by decide) (by decide) (by decide)

theorem textWeight_span (v : String → Nat) (cs t : List Char) :
    textWeight v ("<span".toList ++ (textAttribute cs ++ ("></span>".toList ++ t))) = textWeight v t := by
  have hopen : "<span".toList = ['<', 's', 'p', 'a', 'n'] := by decide
  have hclose : "></span>".toList = ['>', '<', '/', 's', 'p', 'a', 'n', '>'] := by decide
  have hplace : ∀ (c : Char) (t : List Char), c ≠ '!' → placeWeight v (c :: t) = 0 := fun c t hc =>
    placeWeight_eq_zero (by simp [startsWith, after?, hc.symm])
  rw [hopen, hclose, List.cons_append, textWeight, if_pos rfl]
  rw [show ∀ t, (['s', 'p', 'a', 'n'] ++ t) = 's' :: (['p', 'a', 'n'] ++ t) from fun _ => rfl,
    hplace _ _ (by decide), Nat.zero_add, ← List.cons_append,
    textWeight_append_of_not_mem (by decide), textWeight_textAttribute, List.cons_append, textWeight,
    if_neg (by decide), Nat.zero_add, List.cons_append, textWeight, if_pos rfl, List.cons_append,
    hplace _ _ (by decide), Nat.zero_add]
  exact textWeight_append_of_not_mem (a := ['/', 's', 'p', 'a', 'n', '>']) (by decide)

theorem refines_bindText (cs : List Char) : Refines (bindText cs) cs := by
  unfold bindText
  split
  · intro u w h
    have hblank : ∀ {cs : List Char} {c : Char}, isBlank c = false → c ∉ cs.takeWhile isBlank :=
      fun hc hmem => by
        rw [List.all_eq_true.mp List.all_takeWhile _ hmem] at hc
        cases hc
    simp only [List.append_assoc]
    refine .of_run ?_ fun v => ?_
    · exact run?_append_eq_none (c := '<') (hblank (by decide)) (by decide) (by decide)
    · rw [textWeight_append_of_not_mem (hblank (by decide)), textWeight_span,
        textWeight_append_of_not_mem fun hmem => hblank (by decide) (List.mem_reverse.mp hmem)]
      exact (h.weight v).trans (textWeight_le_append cs w)
  · exact .refl cs

theorem refines_addAttribute (hx : Refines x y) (cs z : List Char) :
    Refines (addAttribute x (textAttribute cs)) (y ++ z) := by
  intro u w h
  have hadded : ∀ v, textWeight v (textAttribute cs ++ ('>' :: u)) ≤ textWeight v (z ++ w) := fun v => by
    rw [textWeight_textAttribute, textWeight, if_neg (by decide), Nat.zero_add]
    exact (h.weight v).trans (textWeight_le_append z w)
  have hlast : Below (addAttribute x (textAttribute cs) ++ u) (x ++ (z ++ w)) := by
    unfold addAttribute
    rcases List.eq_nil_or_concat x with rfl | ⟨x, c, rfl⟩
    · simp only [List.dropLast_nil, List.nil_append, List.append_assoc, List.singleton_append]
      exact .of_run (run?_textAttribute _ _) hadded
    · rw [List.concat_eq_append, List.dropLast_concat, List.append_assoc, List.append_assoc,
        List.append_assoc]
      refine Below.append x (.of_run (run?_textAttribute _ _) fun v => (hadded v).trans ?_)
      exact textWeight_le_append [c] _
  rw [List.append_assoc]
  exact hlast.trans (hx _ _ (.refl _))

theorem refines_bindElement (hx : Refines x y) {tag : StartTag} (htag : tag.source = x) (cs : List Char) :
    ∃ z, cs = z ++ (bindElement tag cs).2 ∧ Refines (bindElement tag cs).1 (y ++ z) := by
  subst htag
  unfold bindElement
  simp only
  split
  · rcases h : scanToEndTag? tag.name cs with _ | ⟨body, rest⟩
    · exact ⟨cs, (List.append_nil cs).symm, hx.append (.refl cs)⟩
    · exact ⟨body, scanToEndTag?_eq h, hx.append (.refl body)⟩
  · split
    · exact ⟨[], rfl, (List.append_nil y).symm ▸ hx⟩
    · split
      · rcases h : scanToEndTag? tag.name cs with _ | ⟨body, rest⟩
        · exact ⟨[], rfl, hx.append (.refl [])⟩
        · exact ⟨body, scanToEndTag?_eq h, hx.append (.refl body)⟩
      · split
        · exact ⟨_, scanText_eq _ cs, refines_addAttribute hx _ _⟩
        · exact ⟨[], rfl, (List.append_nil y).symm ▸ hx⟩

theorem refines_bindPiece (cs : List Char) :
    ∃ z, cs = z ++ (bindPiece cs).2 ∧ Refines (bindPiece cs).1 z := by
  unfold bindPiece
  split
  · rename_i body
    split
    · rename_i s rest h
      refine ⟨"<!--".toList ++ s ++ "-->".toList, ?_, .refl _⟩
      rw [cut_eq h]
      simp
    · exact ⟨_, (List.append_nil _).symm, .refl _⟩
  · rename_i body
    refine ⟨_, ?_, .refl _⟩
    simp only [List.append_assoc, List.cons_append, List.take_append_drop,
      List.takeWhile_append_dropWhile]
  · rename_i rest _ _
    split
    · split
      · rename_i tag rest' h
        obtain ⟨z, hz, hr⟩ := refines_bindElement (refines_ofSource ('<' :: tag)) rfl rest'
        refine ⟨'<' :: tag ++ z, ?_, hr⟩
        rw [scanTag_eq h, List.append_assoc, ← hz]
        rfl
      · exact ⟨_, (List.append_nil _).symm, .refl _⟩
    · exact ⟨['<'], rfl, .refl _⟩
  · exact ⟨_, scanText_eq _ cs, refines_bindText _⟩

theorem refines_bindMarkup (cs : List Char) : Refines (bindMarkup cs) cs := by
  have hfrom : ∀ (fuel : Nat) (cs : List Char), Refines (bindFrom fuel cs) cs := by
    intro fuel
    induction fuel with
    | zero => exact .refl
    | succ fuel ih =>
      intro cs
      rcases cs with _ | ⟨c, cs⟩
      · exact .refl []
      · obtain ⟨z, hz, hr⟩ := refines_bindPiece (c :: cs)
        rw [bindFrom]
        · conv => arg 2; rw [hz]
          exact hr.append (ih _)
        · simp
  exact hfrom _ cs

/-! ## Classes -/

theorem isInfix_of_mem_splitAt (mark : Char) : ∀ cs : List Char, (∀ p, (splitAt mark cs).head? = some p → p <+: cs) ∧
    ∀ p ∈ splitAt mark cs, p <:+: cs
  | [] => by simp [splitAt]
  | c :: cs => by
    obtain ⟨h1, h2⟩ := isInfix_of_mem_splitAt mark cs
    rw [splitAt]
    rcases hs : splitAt mark cs with _ | ⟨p, ps⟩ <;> rw [hs] at h1 h2
    · simpa using (List.prefix_append [c] cs).isInfix
    · have hp := h1 p rfl
      have hrest : ∀ q ∈ p :: ps, q <:+: c :: cs := fun q hq =>
        (h2 q hq).trans (List.suffix_cons c cs).isInfix
      simp only
      split
      · refine ⟨fun q hq => ?_, List.forall_mem_cons.mpr ⟨List.nil_infix, hrest⟩⟩
        obtain rfl := Option.some.inj hq
        exact List.nil_prefix
      · have hcons : c :: p <+: c :: cs := List.cons_prefix_cons.mpr ⟨rfl, hp⟩
        refine ⟨fun q hq => ?_, List.forall_mem_cons.mpr ⟨hcons.isInfix, fun q hq => ?_⟩⟩
        · obtain rfl := Option.some.inj hq
          exact hcons
        · exact hrest q (List.mem_cons_of_mem p hq)

theorem isInfix_lastSegment (reference : List Char) : lastSegment reference <:+: reference := by
  refine (isInfix_trim _).trans ?_
  rcases h : (splitAt '.' reference).getLast? with _ | p
  · exact List.nil_infix
  · exact (isInfix_of_mem_splitAt '.' reference).2 p (List.mem_of_getLast? h)

theorem refines_scopeClassesFrom {scope : List Char} (hgt : '>' ∉ scope) (hlt : '<' ∉ scope) :
    ∀ (fuel : Nat) (cs : List Char), Refines (scopeClassesFrom scope fuel cs) cs
  | 0, cs => .refl cs
  | _ + 1, [] => .refl []
  | fuel + 1, c :: cs => fun u w h => by
    have hkeep : Below (c :: scopeClassesFrom scope fuel cs ++ u) (c :: cs ++ w) :=
      (refines_scopeClassesFrom hgt hlt fuel cs u w h).cons c
    rw [scopeClassesFrom]
    split
    · exact hkeep
    · rename_i rest hafter
      split
      · exact hkeep
      · exact hkeep
      · rename_i d rest2 hdrop _
        obtain rfl : d = '"' := by
          have := List.head_dropWhile_not (fun c => decide (c ≠ '"')) (by rw [hdrop]; simp)
          simpa only [hdrop, List.head_cons, decide_eq_false_iff_not, not_not] using this
        have hrest : rest = rest.takeWhile (· ≠ '"') ++ '"' :: rest2 := by
          rw [← hdrop, List.takeWhile_append_dropWhile]
        generalize rest.takeWhile (· ≠ '"') = reference at hrest
        have hih := refines_scopeClassesFrom hgt hlt fuel rest2 u w h
        obtain ⟨p, q, hpq⟩ := isInfix_lastSegment reference
        -- after the segment comes a quote, in the text as in its replacement
        have htail : Below ('_' :: scope ++ '"' :: (scopeClassesFrom scope fuel rest2 ++ u))
            (q ++ ('"' :: (rest2 ++ w))) := by
          refine .of_run (run?_append_eq_none (c := '"') ?_ (by decide) (by decide)) fun v => ?_
          · rw [List.mem_cons, not_or]
            exact ⟨by decide, hgt⟩
          · rw [textWeight_append_of_not_mem (by rw [List.mem_cons, not_or]; exact ⟨by decide, hlt⟩)]
            exact ((hih.cons '"').weight v).trans (textWeight_le_append q _)
        have hsegment := htail.append (lastSegment reference)
        have hold : c :: cs ++ w = (classReference ++ p) ++
            (lastSegment reference ++ (q ++ ('"' :: (rest2 ++ w)))) := by
          rw [after?_eq_some_iff.mp hafter, hrest]
          conv_lhs => rw [← hpq]
          simp only [List.append_assoc, List.cons_append]
        have hnew : "class=\"".toList ++ scopedName (lastSegment reference) scope ++
            '"' :: scopeClassesFrom scope fuel rest2 ++ u =
            "class=\"_".toList ++ (lastSegment reference ++
              ('_' :: scope ++ '"' :: (scopeClassesFrom scope fuel rest2 ++ u))) := by
          simp [scopedName]
        rw [hnew, hold]
        refine .of_run (run?_append_eq_none (a := "class".toList) (c := '=')
          (b := "\"_".toList ++ _) (by decide) (by decide) (by decide)) fun v => ?_
        rw [textWeight_append_of_not_mem (by decide)]
        exact (hsegment.weight v).trans (textWeight_le_append _ _)

theorem mem_base36 : ∀ (fuel n : Nat) (out : List Char), ∀ c ∈ base36.go fuel n out,
    c ∈ out ∨ c.isAlphanum = true
  | 0, _, _, _, h => .inl h
  | fuel + 1, n, out, c, h => by
    have hdigit : ∀ d < 36, (if d < 10 then Char.ofNat ('0'.toNat + d)
        else Char.ofNat ('a'.toNat + (d - 10))).isAlphanum = true := by decide
    have hout : c ∈ (if n % 36 < 10 then Char.ofNat ('0'.toNat + n % 36)
        else Char.ofNat ('a'.toNat + (n % 36 - 10))) :: out → c ∈ out ∨ c.isAlphanum = true := fun h => by
      rcases List.mem_cons.mp h with rfl | h
      exacts [.inr (hdigit _ (Nat.mod_lt n (by decide))), .inl h]
    rw [base36.go] at h
    split at h
    · exact hout h
    · rcases mem_base36 fuel _ _ c h with h | h
      exacts [hout h, .inr h]

theorem not_mem_scopeId {c : Char} (hc : c.isAlphanum = false) (path : List Char) :
    c ∉ scopeId path := fun h => by
  rcases mem_base36 14 _ [] c (List.mem_of_mem_take h) with h | h
  · cases h
  · rw [hc] at h
    cases h

theorem scopeClasses_weight (v : String → Nat) (path html : List Char) :
    textWeight v (scopeClasses (scopeId path) html) ≤ textWeight v html :=
  (refines_scopeClassesFrom (not_mem_scopeId (by decide) path) (not_mem_scopeId (by decide) path)
    html.length html).below.weight v

end LiveMarkup
