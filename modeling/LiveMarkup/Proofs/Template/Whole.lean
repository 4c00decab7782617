import LiveMarkup.Proofs.Template.Nesting

/-!
# Markers between whole pieces of markup

Markup is bound piece by piece.  A text that ends where a piece ends, whatever follows it (`Whole`),
is bound apart from a marker after it (`bindMarkup_whole`), so the marker is left as it is.
-/

namespace LiveMarkup

open Text

variable {a b g u cs rest tag name : List Char} {c : Char} {m : Marker} {ms : List Marker}

/-! ## Scanners read no further than they have to -/

theorem scanGroup_append {depth : Nat} {quote : Option Char} (u : List Char)
    (h : scanGroup depth quote cs = some (a, b)) :
    scanGroup depth quote (cs ++ u) = some (a, b ++ u) := by
  induction depth, quote, cs using scanGroup.induct generalizing a b with
  | case1 => simp [scanGroup] at h
  | case2 depth q c cs ih =>
    simp only [scanGroup, Option.map_eq_some_iff] at h
    obtain ⟨⟨a', b'⟩, h', he⟩ := h
    cases he
    simp [scanGroup, ih h']
  | case3 depth q c cs hne ih =>
    rw [scanGroup.eq_3 _ _ _ _ hne, Option.map_eq_some_iff] at h
    obtain ⟨⟨a', b'⟩, h', he⟩ := h
    cases he
    have hnext : ∀ d ds, c = '\\' → cs ++ u = d :: ds → False := by
      intro d ds hc _
      rcases cs with _ | ⟨e, es⟩
      · simp [scanGroup] at h'
      · exact hne e es hc rfl
    rw [List.cons_append, scanGroup.eq_3 _ _ _ _ hnext, ih h']
    rfl
  | case4 depth cs hd =>
    simp only [scanGroup, ↓reduceIte, hd] at h
    cases h
    simp [scanGroup, hd]
  | case5 depth cs hd ih =>
    simp only [scanGroup, ↓reduceIte, hd, Option.map_eq_some_iff] at h
    obtain ⟨⟨a', b'⟩, h', he⟩ := h
    cases he
    simp [scanGroup, hd, ih h']
  | case6 depth cs hne ih =>
    simp only [scanGroup, hne, ↓reduceIte, Option.map_eq_some_iff] at h
    obtain ⟨⟨a', b'⟩, h', he⟩ := h
    cases he
    simp [scanGroup, ih h']
  | case7 depth c cs h1 h2 ih =>
    simp only [scanGroup, h1, h2, ↓reduceIte, Option.map_eq_some_iff] at h
    obtain ⟨⟨a', b'⟩, h', he⟩ := h
    cases he
    simp [scanGroup, h1, h2, ih h']

theorem braceGroup?_append (u : List Char) (h : braceGroup? cs = some (a, b)) :
    braceGroup? (cs ++ u) = some (a, b ++ u) := by
  unfold braceGroup? at h
  split at h
  · obtain ⟨⟨a', b'⟩, h', he⟩ := Option.map_eq_some_iff.mp h
    cases he
    rw [List.cons_append, braceGroup?, scanGroup_append u h']
    rfl
  · cases h

theorem exists_of_braceGroup? (h : braceGroup? cs = some (a, b)) : ∃ x, a = '\x7b' :: x := by
  unfold braceGroup? at h
  split at h
  · obtain ⟨⟨a', b'⟩, -, he⟩ := Option.map_eq_some_iff.mp h
    cases he
    exact ⟨a', rfl⟩
  · cases h

theorem braceGroup?_eq_none (hc : c ≠ '\x7b') (cs : List Char) : braceGroup? (c :: cs) = none := by
  unfold braceGroup?
  split
  · rename_i heq
    exact absurd (List.cons.inj heq).1 hc
  · rfl

theorem lt_of_isEndTag (h : isEndTag name cs = true) : name.length + 2 < cs.length := by
  unfold isEndTag at h
  split at h
  · cases h
  · rename_i rest hr
    obtain ⟨-, h⟩ := (Bool.and_eq_true _ _).mp h
    rw [after?_eq_some_iff.mp hr]
    rcases hd : rest.drop name.length with _ | ⟨d, x⟩
    · rw [hd] at h
      cases h
    · have := congrArg List.length hd
      rw [List.length_drop, List.length_cons] at this
      simp only [List.length_append, List.length_cons, List.length_nil]
      omega

theorem isEndTag_append (u : List Char) (h : name.length + 2 < cs.length) :
    isEndTag name (cs ++ u) = isEndTag name cs := by
  obtain _ | ⟨d, _ | ⟨e, r⟩⟩ := cs
  · simp at h
  · simp at h
  have hlt : name.length < r.length := by simpa using h
  have hafter : after? ['<', '/'] (d :: e :: r ++ u) = (after? ['<', '/'] (d :: e :: r)).map (· ++ u) := by
    simp only [after?, List.cons_append]
    split
    · split <;> rfl
    · rfl
  have htake : (r ++ u).take name.length = r.take name.length :=
    List.take_append_of_le_length hlt.le
  obtain ⟨x, y, hxy⟩ := List.exists_cons_of_ne_nil (show r.drop name.length ≠ [] by simpa using hlt)
  have hdrop : ((r ++ u).drop name.length).head? = (r.drop name.length).head? := by
    rw [List.drop_append_of_le_length hlt.le, hxy]
    rfl
  rw [isEndTag, isEndTag, hafter]
  rcases hr : after? ['<', '/'] (d :: e :: r) with _ | r'
  · rfl
  · obtain rfl : r' = r := by
      have := after?_eq_some_iff.mp hr
      simpa using (List.cons.inj (List.cons.inj this).2).2.symm
    simp only [Option.map_some, htake, hdrop]

theorem scanToEndTag?_append (u : List Char) (h : scanToEndTag? name cs = some (a, b)) :
    scanToEndTag? name (cs ++ u) = some (a, b ++ u) ∧ name.length + 2 < cs.length := by
  induction cs generalizing a with
  | nil => cases h
  | cons c cs ih =>
    rw [scanToEndTag?] at h
    split at h
    · rename_i hend
      cases h
      have hlt := lt_of_isEndTag hend
      refine ⟨?_, hlt⟩
      rw [List.cons_append, scanToEndTag?, ← List.cons_append, isEndTag_append u hlt, if_pos hend]
    · rename_i hend
      obtain ⟨⟨a', b'⟩, h', he⟩ := Option.map_eq_some_iff.mp h
      cases he
      obtain ⟨hih, hlt⟩ := ih h'
      have hlt' : name.length + 2 < (c :: cs).length := hlt.trans (Nat.lt_succ_self _)
      refine ⟨?_, hlt'⟩
      rw [List.cons_append, scanToEndTag?, ← List.cons_append, isEndTag_append u hlt', if_neg hend, hih]
      rfl

/-! ## Pieces -/

/-- Whatever follows it, a start tag ends where it ends.  Its first bracket is left out. -/
structure IsTag (tag : List Char) : Prop where
  named : tag.head?.any Char.isAlpha = true
  scan : ∀ u, scanTag (tag ++ u).length none (tag ++ u) = some (tag, u)

/-- After a start tag comes markup. -/
def StartTag.IsOpen (t : StartTag) : Prop :=
  String.ofList t.name ∉ rawTags ∧
    (t.bindsText = false ∨ t.selfClosing = true ∨ String.ofList t.name ∈ voidTags)

/-- Markup that ends where a piece of it ends, whatever follows. -/
inductive Whole : List Char → Prop
  | nil : Whole []
  | char {c : Char} {cs : List Char} : c ≠ '<' → c ≠ '\x7b' → Whole cs → Whole (c :: cs)
  | group {g cs : List Char} : braceGroup? g = some (g, []) → Whole cs → Whole (g ++ cs)
  | bracket {cs : List Char} : (∀ c ∈ cs.head?, c ≠ '/' ∧ c.isAlpha = false) → ¬ "!--".toList <+: cs → Whole cs →
    Whole ('<' :: cs)
  | endTag {a cs : List Char} : '>' ∉ a → Whole cs → Whole ('<' :: '/' :: (a ++ '>' :: cs))
  | tag {tag cs : List Char} : IsTag tag → (StartTag.ofSource ('<' :: tag)).IsOpen → Whole cs →
    Whole ('<' :: (tag ++ cs))
  | element {tag a cs : List Char} : IsTag tag → ¬ (StartTag.ofSource ('<' :: tag)).IsOpen →
    scanToEndTag? (StartTag.ofSource ('<' :: tag)).name (a ++ cs) = some (a, cs) → Whole cs →
    Whole ('<' :: (tag ++ (a ++ cs)))

/-- Blanks at the start of whole markup can be left out. -/
theorem Whole.of_append (ha : ∀ c ∈ a, isBlank c = true) (h : Whole (a ++ cs)) : Whole cs := by
  induction a with
  | nil => exact h
  | cons c a ih =>
    obtain ⟨hc, ha⟩ := List.forall_mem_cons.mp ha
    refine ih ha ?_
    have hlt : c ≠ '<' := by
      rintro rfl
      revert hc
      decide
    generalize hx : c :: a ++ cs = x at h
    cases h with
    | nil => cases hx
    | char _ _ hcs =>
      obtain ⟨-, rfl⟩ := List.cons.inj hx
      exact hcs
    | group hg _ =>
      obtain ⟨y, rfl⟩ := exists_of_braceGroup? hg
      obtain ⟨rfl, -⟩ := List.cons.inj hx
      rw [show isBlank '\x7b' = false by decide] at hc
      cases hc
    | bracket => exact absurd (List.cons.inj hx).1 hlt
    | endTag => exact absurd (List.cons.inj hx).1 hlt
    | tag => exact absurd (List.cons.inj hx).1 hlt
    | element => exact absurd (List.cons.inj hx).1 hlt

/-- Text up to the next tag of whole markup leaves whole markup. -/
theorem Whole.scanText (h : Whole cs) : ∃ a b, cs = a ++ b ∧ Whole b ∧ ∀ u, u.head? = some '<' →
    ∀ fuel, (cs ++ u).length ≤ fuel → LiveMarkup.scanText fuel (cs ++ u) = (a, b ++ u) := by
  have hstop : ∀ u, u.head? = some '<' → ∀ fuel, LiveMarkup.scanText fuel u = ([], u) := by
    intro u hu fuel
    rcases fuel with _ | fuel
    · rfl
    · rcases u with _ | ⟨c, u⟩
      · cases hu
      · rw [LiveMarkup.scanText, if_pos (Option.some.inj hu)]
  induction h with
  | nil => exact ⟨[], [], rfl, .nil, fun u hu fuel _ => hstop u hu fuel⟩
  | @char c cs hlt hbrace _ ih =>
    obtain ⟨a, b, rfl, hb, hscan⟩ := ih
    refine ⟨c :: a, b, rfl, hb, fun u hu fuel hfuel => ?_⟩
    obtain ⟨fuel, rfl⟩ := Nat.exists_eq_add_of_le' (show 1 ≤ fuel by simp at hfuel; omega)
    rw [List.cons_append, LiveMarkup.scanText, if_neg hlt, braceGroup?_eq_none hbrace]
    simp only
    rw [hscan u hu fuel (by simpa using hfuel)]
  | @group g cs hg _ ih =>
    obtain ⟨a, b, rfl, hb, hscan⟩ := ih
    obtain ⟨x, rfl⟩ := exists_of_braceGroup? hg
    refine ⟨'\x7b' :: x ++ a, b, by rw [List.append_assoc], hb, fun u hu fuel hfuel => ?_⟩
    obtain ⟨fuel, rfl⟩ := Nat.exists_eq_add_of_le' (show 1 ≤ fuel by simp at hfuel; omega)
    have hgroup := braceGroup?_append (a ++ b ++ u) hg
    rw [List.nil_append] at hgroup
    have hsum : '\x7b' :: x ++ (a ++ b) ++ u = '\x7b' :: x ++ (a ++ b ++ u) := by
      simp only [List.append_assoc]
    rw [hsum]
    rw [List.cons_append] at hgroup ⊢
    rw [LiveMarkup.scanText, if_neg (by decide), hgroup]
    simp only
    rw [hscan u hu fuel (by simp at hfuel ⊢; omega)]
  | bracket h1 h2 h => exact ⟨[], _, rfl, .bracket h1 h2 h, fun u _ fuel _ => hstop _ rfl fuel⟩
  | endTag h1 h => exact ⟨[], _, rfl, .endTag h1 h, fun u _ fuel _ => hstop _ rfl fuel⟩
  | tag h1 h2 h => exact ⟨[], _, rfl, .tag h1 h2 h, fun u _ fuel _ => hstop _ rfl fuel⟩
  | element h1 h2 h3 h => exact ⟨[], _, rfl, .element h1 h2 h3 h, fun u _ fuel _ => hstop _ rfl fuel⟩

/-! ## Binding piece by piece -/

theorem length_scanText_lt (hc : c ≠ '<') (fuel : Nat) (cs : List Char) :
    (LiveMarkup.scanText (fuel + 1) (c :: cs)).2.length < (c :: cs).length := by
  rw [LiveMarkup.scanText, if_neg hc]
  split
  · rename_i g rest hg
    obtain ⟨x, rfl⟩ := exists_of_braceGroup? hg
    have hsum := congrArg List.length (braceGroup?_eq hg)
    have hrest := congrArg List.length (scanText_eq fuel rest)
    simp only [List.length_append, List.length_cons] at hsum hrest ⊢
    omega
  · have hrest := congrArg List.length (scanText_eq fuel cs)
    simp only [List.length_append, List.length_cons] at hrest ⊢
    omega

theorem length_bindPiece_lt (hne : cs ≠ []) : (bindPiece cs).2.length < cs.length := by
  unfold bindPiece
  split
  · rename_i body
    split
    · rename_i s rest h
      have := congrArg List.length (cut_eq h)
      simp only [List.length_append, List.length_cons] at this ⊢
      omega
    · exact List.length_pos_of_ne_nil hne
  · rename_i body
    have h1 := List.length_dropWhile_le (· ≠ '>') body
    simp only [List.length_drop, List.length_cons]
    omega
  · rename_i rest _ _
    split
    · split
      · rename_i tag rest' h
        obtain ⟨z, hz, -⟩ := refines_bindElement (refines_ofSource ('<' :: tag)) rfl rest'
        have h1 := congrArg List.length (scanTag_eq h)
        have h2 := congrArg List.length hz
        simp only [List.length_append, List.length_cons] at h1 h2 ⊢
        omega
      · exact List.length_pos_of_ne_nil hne
    · exact Nat.lt_succ_self _
  · rename_i hlt
    obtain ⟨c, cs, rfl⟩ := List.exists_cons_of_ne_nil hne
    exact length_scanText_lt (fun hc => hlt cs (by rw [hc])) cs.length cs

theorem bindFrom_eq {fuel fuel' : Nat} {cs : List Char} (h : cs.length ≤ fuel) (h' : cs.length ≤ fuel') :
    bindFrom fuel cs = bindFrom fuel' cs := by
  induction fuel generalizing fuel' cs with
  | zero =>
    obtain rfl := List.length_eq_zero_iff.mp (Nat.le_zero.mp h)
    cases fuel' <;> rfl
  | succ fuel ih =>
    rcases cs with _ | ⟨c, cs⟩
    · cases fuel' <;> rfl
    · obtain ⟨fuel', rfl⟩ := Nat.exists_eq_add_of_le' (show 1 ≤ fuel' by simp at h'; omega)
      have hlt := length_bindPiece_lt (List.cons_ne_nil c cs)
      rw [List.length_cons] at h h' hlt
      rw [bindFrom, bindFrom]
      · simp only
        rw [ih (show _ ≤ fuel by omega) (show _ ≤ fuel' by omega)]
      · simp
      · simp

theorem bindMarkup_eq (hne : cs ≠ []) : bindMarkup cs = (bindPiece cs).1 ++ bindMarkup (bindPiece cs).2 := by
  have hlt := length_bindPiece_lt hne
  obtain ⟨c, cs, rfl⟩ := List.exists_cons_of_ne_nil hne
  rw [List.length_cons] at hlt
  rw [bindMarkup, List.length_cons, bindFrom]
  · simp only
    rw [bindMarkup, bindFrom_eq (by omega) le_rfl]
  · simp

/-- The content of an open element starts with the text that follows, so its tag leaves all of it, or
what comes after that text. -/
theorem Whole.bindElement {t : StartTag} (ht : t.IsOpen) (h : Whole cs) (hu : u.head? = some '<') :
    ∃ x b, Whole b ∧ LiveMarkup.bindElement t (cs ++ u) = (x, b ++ u) := by
  obtain ⟨hraw, hopen⟩ := ht
  obtain ⟨a, b, -, hb, hscan⟩ := h.scanText
  have hscan := hscan u hu _ le_rfl
  rw [LiveMarkup.bindElement]
  simp only
  rw [if_neg hraw]
  split
  · exact ⟨_, cs, h, rfl⟩
  · rename_i hvoid
    have hbinds : t.bindsText = false := by
      simp only [Bool.or_eq_true, decide_eq_true_eq, not_or] at hvoid
      rcases hopen with h | h | h
      exacts [h, absurd h hvoid.1, absurd h hvoid.2]
    rw [hbinds, if_neg (by decide), hscan]
    simp only
    split
    · exact ⟨_, b, hb, rfl⟩
    · exact ⟨_, cs, h, rfl⟩

theorem bindElement_of_not_isOpen {t : StartTag} (ht : ¬ t.IsOpen) (h : scanToEndTag? t.name cs = some (a, b)) :
    bindElement t cs = (t.source ++ a, b) := by
  rw [bindElement, h]
  simp only
  split
  · rfl
  · rename_i hraw
    simp only [StartTag.IsOpen, not_and, not_or, Bool.not_eq_false] at ht
    obtain ⟨hbinds, hself, hvoid⟩ := ht hraw
    rw [if_neg (by simp [hself, hvoid]), if_pos hbinds]
    rfl

theorem bindPiece_text (hc : c ≠ '<') (cs : List Char) :
    bindPiece (c :: cs) = (bindText (scanText (c :: cs).length (c :: cs)).1,
      (scanText (c :: cs).length (c :: cs)).2) := by
  unfold bindPiece
  split
  iterate 3
    rename_i heq
    exact absurd (List.cons.inj heq).1 hc
  rfl

theorem bindPiece_endTag (ha : '>' ∉ a) (cs : List Char) :
    bindPiece ('<' :: '/' :: (a ++ '>' :: cs)) = ('<' :: '/' :: a ++ ['>'], cs) := by
  have hall : ∀ c ∈ a, decide (c ≠ '>') = true := fun c hc =>
    decide_eq_true fun h => ha (h ▸ hc)
  have htake : (a ++ '>' :: cs).takeWhile (· ≠ '>') = a := by
    rw [List.takeWhile_append_of_pos hall, List.takeWhile_cons_of_neg (by decide), List.append_nil]
  have hdrop : (a ++ '>' :: cs).dropWhile (· ≠ '>') = '>' :: cs := by
    rw [List.dropWhile_append_of_pos hall, List.dropWhile_cons_of_neg (by decide)]
  rw [bindPiece, htake, hdrop]
  rfl

theorem bindPiece_bracket (hhead : ∀ c ∈ cs.head?, c ≠ '/' ∧ c.isAlpha = false)
    (hopen : ¬ "!--".toList <+: cs) : bindPiece ('<' :: cs) = (['<'], cs) := by
  unfold bindPiece
  split
  · rename_i body heq
    obtain ⟨-, rfl⟩ := List.cons.inj heq
    exact absurd ⟨body, rfl⟩ hopen
  · rename_i body heq
    obtain ⟨-, rfl⟩ := List.cons.inj heq
    exact absurd rfl (hhead '/' rfl).1
  · rename_i heq
    obtain ⟨-, rfl⟩ := List.cons.inj heq
    rw [if_neg]
    rcases hc : cs.head? with _ | c
    · decide
    · simp [(hhead c hc).2]
  · rename_i hlt
    exact absurd rfl (hlt cs)

theorem bindPiece_tag (htag : IsTag tag) (cs : List Char) :
    bindPiece ('<' :: (tag ++ cs)) = bindElement (.ofSource ('<' :: tag)) cs := by
  obtain ⟨c, tag, rfl⟩ : ∃ c t, tag = c :: t := by
    rcases tag with _ | ⟨c, t⟩
    · cases htag.named
    · exact ⟨c, t, rfl⟩
  have halpha : c.isAlpha = true := htag.named
  unfold bindPiece
  split
  · rename_i heq
    obtain rfl := (List.cons.inj (List.cons.inj heq).2).1
    exact absurd halpha (by decide)
  · rename_i heq
    obtain rfl := (List.cons.inj (List.cons.inj heq).2).1
    exact absurd halpha (by decide)
  · rename_i heq
    obtain ⟨-, rfl⟩ := List.cons.inj heq
    have hhead : ((c :: tag ++ cs).head?.any Char.isAlpha) = true := halpha
    rw [if_pos hhead, htag.scan]
  · rename_i hlt
    exact absurd rfl (hlt _)

/-- The first piece of whole markup leaves whole markup. -/
theorem Whole.bindPiece (h : Whole cs) (hne : cs ≠ []) (hu : "<!--".toList <+: u) :
    ∃ x b, Whole b ∧ LiveMarkup.bindPiece (cs ++ u) = (x, b ++ u) := by
  obtain ⟨r, rfl⟩ := hu
  have hu : ("<!--".toList ++ r).head? = some '<' := rfl
  have htext : ∀ {c cs'}, cs = c :: cs' → c ≠ '<' →
      ∃ x b, Whole b ∧ LiveMarkup.bindPiece (cs ++ ("<!--".toList ++ r)) = (x, b ++ ("<!--".toList ++ r)) := by
    rintro c cs' rfl hc
    obtain ⟨a, b, -, hb, hscan⟩ := h.scanText
    refine ⟨bindText a, b, hb, ?_⟩
    rw [List.cons_append, bindPiece_text hc, ← List.cons_append, hscan _ hu _ le_rfl]
  cases id h with
  | nil => exact absurd rfl hne
  | char hlt => exact htext rfl hlt
  | group hg =>
    obtain ⟨x, rfl⟩ := exists_of_braceGroup? hg
    exact htext rfl (by decide)
  | @bracket cs' hhead hopen hcs =>
    refine ⟨['<'], cs', hcs, ?_⟩
    rw [List.cons_append, bindPiece_bracket]
    · intro c hc
      rcases cs' with _ | ⟨d, cs'⟩
      · obtain rfl := Option.some.inj hc
        decide
      · exact hhead c hc
    · rintro ⟨y, hy⟩
      rcases List.append_eq_append_iff.mp hy with ⟨x, rfl, -⟩ | ⟨x, hx, hy⟩
      · exact hopen ⟨x, rfl⟩
      · rcases x with _ | ⟨d, x⟩
        · exact hopen ⟨[], by rw [hx, List.append_nil, List.append_nil]⟩
        · obtain ⟨rfl, -⟩ := List.cons.inj hy
          exact absurd (hx ▸ List.mem_append_right cs' List.mem_cons_self) (by decide)
  | @endTag a cs' ha hcs =>
    refine ⟨'<' :: '/' :: a ++ ['>'], cs', hcs, ?_⟩
    have hsum : '<' :: '/' :: (a ++ '>' :: cs') ++ ("<!--".toList ++ r) =
        '<' :: '/' :: (a ++ '>' :: (cs' ++ ("<!--".toList ++ r))) := by simp
    rw [hsum, bindPiece_endTag ha]
  | @tag tag cs' htag hopen hcs =>
    rw [List.cons_append, List.append_assoc, bindPiece_tag htag]
    exact hcs.bindElement hopen hu
  | @element tag a cs' htag hopen hend hcs =>
    rw [List.cons_append, List.append_assoc, bindPiece_tag htag]
    exact ⟨_, cs', hcs, bindElement_of_not_isOpen hopen
      (scanToEndTag?_append ("<!--".toList ++ r) hend).1⟩

/-- Whole markup is bound apart from a comment after it. -/
theorem bindMarkup_whole (h : Whole cs) (hu : "<!--".toList <+: u) :
    ∃ x, bindMarkup (cs ++ u) = x ++ bindMarkup u := by
  induction hn : cs.length using Nat.strong_induction_on generalizing cs with
  | _ n ih =>
    rcases eq_or_ne cs [] with rfl | hne
    · exact ⟨[], rfl⟩
    · obtain ⟨x, b, hb, hpiece⟩ := h.bindPiece hne hu
      have hne' : cs ++ u ≠ [] := List.append_ne_nil_of_left_ne_nil hne u
      have hlt := length_bindPiece_lt hne'
      rw [hpiece, List.length_append, List.length_append] at hlt
      obtain ⟨y, hy⟩ := ih b.length (by omega) hb rfl
      refine ⟨x ++ y, ?_⟩
      rw [bindMarkup_eq hne', hpiece, hy, List.append_assoc]

/-- A marker is left as it is. -/
theorem bindMarkup_marker (hname : ∀ c ∈ m.name.toList, isMark c = true) (cs : List Char) :
    bindMarkup (m.markup ++ cs) = m.markup ++ bindMarkup cs := by
  have hpiece : bindPiece (m.markup ++ cs) = (m.markup, cs) := by
    have hopen : "!--".toList = ['!', '-', '-'] := by decide
    rw [markup_eq, hopen]
    simp only [List.cons_append, List.nil_append]
    rw [bindPiece, cut?_append (not_mem_comment hname isMark_gt)]
    simpa using (markup_eq m []).symm
  rw [bindMarkup_eq (by rw [markup_eq]; simp), hpiece]

/-! ## Texts with markers in them -/

/-- A text with markers in it, each of them after whole markup. -/
inductive Parted : List Char → List Marker → Prop
  | text (cs : List Char) : Parted cs []
  | marker {cs rest : List Char} {m : Marker} {ms : List Marker} : Whole cs →
    (∀ c ∈ m.name.toList, isMark c = true) → Parted rest ms → Parted (cs ++ (m.markup ++ rest)) (m :: ms)

namespace Parted

theorem isInfix_bindMarkup (h : Parted cs ms) : ∀ m ∈ ms, m.markup <:+: bindMarkup cs := by
  induction h with
  | text cs => exact fun m hm => by cases hm
  | @marker cs rest m ms hcs hname _ ih =>
    obtain ⟨x, hx⟩ := bindMarkup_whole (u := m.markup ++ rest) hcs
      ⟨m.comment.toList ++ ("-->".toList ++ rest), (markup_eq m rest).symm⟩
    rw [hx, bindMarkup_marker hname]
    intro m' hm'
    rcases List.mem_cons.mp hm' with rfl | hm'
    · exact ⟨x, bindMarkup rest, List.append_assoc _ _ _⟩
    · exact (ih m' hm').trans ((List.suffix_append _ _).trans (List.suffix_append _ _)).isInfix

theorem of_append_left (ha : ∀ c ∈ a, isBlank c = true) (h : Parted (a ++ cs) ms) : Parted cs ms := by
  generalize hx : a ++ cs = x at h
  cases h with
  | text => exact .text cs
  | @marker w rest m ms hw hname h =>
    rcases List.append_eq_append_iff.mp hx with ⟨y, rfl, rfl⟩ | ⟨y, rfl, hy⟩
    · exact .marker (hw.of_append ha) hname h
    · rcases y with _ | ⟨d, y⟩
      · rw [List.nil_append] at hy
        rw [← hy]
        exact .marker .nil hname h
      · rw [markup_eq] at hy
        obtain ⟨rfl, -⟩ := List.cons.inj hy
        exact absurd (ha '<' (by simp)) (by decide)

theorem of_append_right (hb : ∀ c ∈ b, isBlank c = true) (h : Parted (cs ++ b) ms) : Parted cs ms := by
  generalize hx : cs ++ b = x at h
  induction h generalizing cs with
  | text => exact .text cs
  | @marker w rest m ms hw hname h ih =>
    obtain ⟨p, hp⟩ : ∃ p, m.markup = p ++ ['>'] := ⟨"<!-- ".toList ++ m.text.toList ++ " --".toList, by
      simp [Marker.markup_def]⟩
    have hsum : ∀ y, w ++ (m.markup ++ y) = w ++ p ++ ['>'] ++ y := by simp [hp]
    rw [hsum] at hx
    rcases List.append_eq_append_iff.mp hx with ⟨y, hy, rfl⟩ | ⟨y, rfl, rfl⟩
    · -- the last bracket of the marker is no blank
      rcases List.eq_nil_or_concat y with rfl | ⟨y, d, rfl⟩
      · rw [List.append_nil] at hy
        rw [← hy, ← List.append_nil (w ++ p ++ ['>']), ← hsum]
        exact .marker hw hname (ih rfl)
      · rw [List.concat_eq_append, ← List.append_assoc] at hy
        obtain rfl := List.singleton_inj.mp (List.append_inj' hy rfl).2
        exact absurd (hb '>' (by simp)) (by decide)
    · rw [← hsum]
      exact .marker hw hname (ih rfl)

theorem trim (h : Parted cs ms) : Parted (Text.trim cs) ms := by
  obtain ⟨a, b, hcs, ha, hb⟩ := trim_eq cs
  rw [hcs] at h
  exact (h.of_append_left ha).of_append_right hb

end Parted

end LiveMarkup
