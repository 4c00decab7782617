import LiveMarkup.Proofs.Markup.Canonical

/-!
# Markup in normal form

What is read can be written out again, unless a doctype begins like a comment or a tag ends with a
blank (`loose_parse`).  Texts side by side are one text when they are read again, and joining them
does not change the markup (`Loose.joinAll`).  So the markup of a document that was read is the markup
of what is read from it (`toHtml_parse_toHtml`).
-/

namespace LiveMarkup

open Text

variable {e : Element} {s : String} {t : Tree} {ts rest : List Tree} {cs mark a b : List Char}
  {data : NodeData}

namespace Tree

/-! ## Texts side by side -/

/-- A tree before others: a text is joined with the text that they start with, and left out if it is
empty. -/
def join (t : Tree) (ts : List Tree) : List Tree :=
  match t, ts with
  | .node (.text s) _, .node (.text s') us :: rest =>
    if s = "" then .node (.text s') us :: rest else .leaf (.text (s ++ s')) :: rest
  | .node (.text s) us, ts => if s = "" then ts else .node (.text s) us :: ts
  | t, ts => t :: ts

/-- Trees with the texts joined that stand side by side. -/
def joinAll : List Tree → List Tree
  | [] => []
  | .node data ts :: rest => join (.node data (joinAll ts)) (joinAll rest)

/-- Trees that can be written out, with texts side by side. -/
def Loose : List Tree → Prop :=
  Legible Element.Readable fun _ _ => True

theorem joinAll_nil : joinAll [] = [] := by
  rw [joinAll]

theorem joinAll_text (s : String) (rest : List Tree) :
    joinAll (.leaf (.text s) :: rest) = join (.leaf (.text s)) (joinAll rest) := by
  rw [leaf, joinAll, joinAll_nil]

theorem joinAll_cons (h : ∀ s, data ≠ .text s) (ts rest : List Tree) :
    joinAll (.node data ts :: rest) = .node data (joinAll ts) :: joinAll rest := by
  rw [joinAll]
  rcases data with _ | _ | e | s | s | s
  case text => exact absurd rfl (h s)
  all_goals rfl

theorem joinAll_leaf (h : ∀ s, data ≠ .text s) (rest : List Tree) :
    joinAll (.leaf data :: rest) = .leaf data :: joinAll rest := by
  rw [leaf, joinAll_cons h, joinAll_nil]

/-- A text before others that stand apart: all of them stand apart, and the markup is the same. -/
theorem Legible.join (h : Legible Element.Readable Apart ts) (s : String) :
    Legible Element.Readable Apart (Tree.join (.leaf (.text s)) ts) ∧
      renderAll (Tree.join (.leaf (.text s)) ts) = renderAll (.leaf (.text s) :: ts) := by
  have hempty : renderAll (.leaf (.text "") :: ts) = renderAll ts := by
    rw [renderAll_cons, leaf, render]
    rfl
  rcases hstart : startsWithText ts with _ | _
  · -- nothing to join the text with
    have hjoin : Tree.join (.leaf (.text s)) ts = if s = "" then ts else .leaf (.text s) :: ts := by
      rw [leaf, Tree.join]
      rintro s' us rest rfl
      cases hstart
    rw [hjoin]
    split
    · rename_i h0
      rw [h0]
      exact ⟨h, hempty.symm⟩
    · rename_i h0
      exact ⟨.text ⟨h0, hstart⟩ h, rfl⟩
  · cases h
    case text s' rest hs hrest =>
      have hjoin : Tree.join (.leaf (.text s)) (.leaf (.text s') :: rest) =
          if s = "" then .leaf (.text s') :: rest else .leaf (.text (s ++ s')) :: rest := by
        rw [leaf, leaf, Tree.join]
      rw [hjoin]
      split
      · rename_i h0
        rw [h0]
        exact ⟨.text hs hrest, hempty.symm⟩
      · rename_i h0
        refine ⟨.text ⟨fun h => h0 (String.append_eq_empty_iff.mp h).1, hs.2⟩ hrest, ?_⟩
        simp only [renderAll_cons, leaf, render, String.toList_append, escapeText, escape,
          List.flatMap_append, List.append_assoc]
    all_goals cases hstart

theorem renderAll_node (data : NodeData) (ts : List Tree) {rest rest' : List Tree}
    (h : renderAll rest = renderAll rest') :
    renderAll (.node data ts :: rest) = renderAll (.node data ts :: rest') := by
  rw [renderAll_cons, renderAll_cons, h]

/-- Trees that can be written out stand apart when texts side by side are joined, and the markup is
the same. -/
theorem Loose.joinAll (h : Loose ts) :
    Legible Element.Readable Apart (joinAll ts) ∧ renderAll (Tree.joinAll ts) = renderAll ts := by
  induction h with
  | nil =>
    rw [joinAll_nil]
    exact ⟨.nil, rfl⟩
  | @text s rest _ _ ih =>
    rw [joinAll_text]
    obtain ⟨h1, h2⟩ := ih.1.join s
    exact ⟨h1, h2.trans (renderAll_node _ [] ih.2)⟩
  | @comment s rest hs _ ih =>
    rw [joinAll_leaf (by simp)]
    exact ⟨.comment hs ih.1, renderAll_node _ [] ih.2⟩
  | @doctype s rest htrim hgt hdash _ ih =>
    rw [joinAll_leaf (by simp)]
    exact ⟨.doctype htrim hgt hdash ih.1, renderAll_node _ [] ih.2⟩
  | @void e rest he hvoid _ ih =>
    rw [joinAll_leaf (by simp)]
    exact ⟨.void he hvoid ih.1, renderAll_node _ [] ih.2⟩
  | @raw e ts rest he hraw hts _ ih =>
    have hself : Tree.joinAll ts = ts := by
      rcases hts with rfl | ⟨s, hne, rfl, -⟩
      · exact joinAll_nil
      · rw [joinAll_text, joinAll_nil, leaf, join, if_neg hne]
        simp
    rw [joinAll_cons (by simp), hself]
    exact ⟨.raw he hraw hts ih.1, renderAll_node _ ts ih.2⟩
  | @element e ts rest he hvoid hraw _ _ iht ihr =>
    rw [joinAll_cons (by simp)]
    refine ⟨.element he hvoid hraw iht.1 ihr.1, ?_⟩
    rw [renderAll_cons, renderAll_cons, ihr.2, render, render, iht.2]
    simp [hraw]

theorem Legible.renderAll_unsetAll {element : Element → Prop} {text : String → List Tree → Prop}
    (h : Legible element text ts) : renderAll (unsetAll ts) = renderAll ts := by
  induction h with
  | nil => rw [unsetAll]
  | text _ _ ih | comment _ _ ih | doctype _ _ _ _ ih =>
    rw [unsetAll_leaf]
    exact renderAll_node _ [] ih
  | void _ _ _ ih =>
    rw [unsetAll_leaf, leaf, leaf, renderAll_cons, renderAll_cons, ih]
    rfl
  | @raw e ts rest _ hraw hts _ ih =>
    rw [unsetAll_cons, hts.unsetAll, renderAll_cons, renderAll_cons, ih]
    rfl
  | @element e ts rest _ hvoid hraw _ _ iht ihr =>
    have hnode : render (.node (.element e.unset) (unsetAll ts)) = render (.node (.element e) ts) := by
      rw [render, render, iht]
      simp only [Element.isVoid_unset, Element.isRaw_unset, hvoid, hraw]
      rfl
    rw [unsetAll_cons, renderAll_cons, renderAll_cons, ihr]
    exact congrArg (· ++ _) hnode

end Tree

/-! ## What is scanned -/

theorem not_infix_cut (hne : mark ≠ []) (h : cut? mark cs = some (a, b)) : ¬ mark <:+: a := by
  induction cs generalizing a with
  | nil =>
    rw [cut?, Option.map_eq_some_iff] at h
    obtain ⟨r, -, h⟩ := h
    cases h
    simpa using hne
  | cons c cs ih =>
    rw [cut?] at h
    split at h
    · cases h
      simpa using hne
    · rename_i hafter
      obtain ⟨⟨a', b'⟩, hcut, h⟩ := Option.map_eq_some_iff.mp h
      cases h
      rw [List.infix_cons_iff, not_or]
      refine ⟨?_, ih hcut⟩
      rintro ⟨r, hr⟩
      have hsome : after? mark (c :: cs) = some (r ++ (mark ++ b)) := by
        rw [after?_eq_some_iff, cut_eq hcut, ← List.append_assoc mark, hr]
        simp
      rw [hsome] at hafter
      cases hafter

theorem not_infix_of_cut_eq_none (h : cut? mark cs = none) : ¬ mark <:+: cs := by
  have hafter : ∀ {cs}, after? mark cs = none → ¬ mark <+: cs := by
    rintro _ hnone ⟨r, rfl⟩
    rw [after?_eq_some_iff.mpr rfl] at hnone
    cases hnone
  induction cs with
  | nil =>
    rw [cut?, Option.map_eq_none_iff] at h
    rintro ⟨x, y, hxy⟩
    simp only [List.append_eq_nil_iff] at hxy
    exact hafter h ⟨[], by rw [hxy.1.2, List.append_nil]⟩
  | cons c cs ih =>
    rw [cut?] at h
    split at h
    · cases h
    · rename_i hnone
      rw [List.infix_cons_iff, not_or]
      exact ⟨hafter hnone, ih (Option.map_eq_none_iff.mp h)⟩

/-- The text of an element that holds text does not hold its end tag. -/
theorem not_infix_scanRaw (hne : mark ≠ []) : ∀ cs : List Char, ¬ mark <:+: lowerCase (scanRaw mark cs).1
  | [] => by simpa [scanRaw, lowerCase] using hne
  | c :: cs => by
    have hprefix : ∀ cs, (scanRaw mark cs).1 <+: cs := fun cs => by
      induction cs with
      | nil => exact List.prefix_rfl
      | cons c cs ih =>
        rw [scanRaw]
        split
        exacts [List.nil_prefix, List.cons_prefix_cons.mpr ⟨rfl, ih⟩]
    rw [scanRaw]
    split
    · simpa [lowerCase] using hne
    · rename_i hno
      rw [lowerCase, List.map_cons, List.infix_cons_iff, not_or]
      refine ⟨fun h => hno ?_, not_infix_scanRaw hne cs⟩
      rw [startsWithLower_iff]
      exact h.trans ((List.cons_prefix_cons.mpr ⟨rfl, hprefix cs⟩).map _)

theorem isNameChar_scanAttributeName (cs : List Char) :
    ∀ c ∈ (scanAttributeName cs).1, isNameChar c = true := by
  induction cs using scanAttributeName.induct with
  | case1 => exact fun _ h => absurd h List.not_mem_nil
  | case2 => exact fun _ h => absurd h List.not_mem_nil
  | case3 c cs hne h =>
    rw [scanAttributeName.eq_3 c cs hne, if_pos h]
    exact fun _ h => absurd h List.not_mem_nil
  | case4 c cs hne h _ _ _ ih =>
    rw [scanAttributeName.eq_3 c cs hne, if_neg h]
    exact List.forall_mem_cons.mpr ⟨by simpa [isNameChar, and_assoc] using h, ih⟩

theorem scanAttributeName_prefix (cs : List Char) : (scanAttributeName cs).1 <+: cs := by
  induction cs using scanAttributeName.induct with
  | case1 => exact List.prefix_rfl
  | case2 => exact List.nil_prefix
  | case3 c cs hne h =>
    rw [scanAttributeName.eq_3 c cs hne, if_pos h]
    exact List.nil_prefix
  | case4 c cs hne h _ _ _ ih =>
    rw [scanAttributeName.eq_3 c cs hne, if_neg h]
    exact List.cons_prefix_cons.mpr ⟨rfl, ih⟩

/-! ## Small letters -/

/-- A character in lower case is the character, or a small letter. -/
theorem toLower_eq_or (c : Char) : c.toLower = c ∨ c.toLower.isLower = true := by
  by_cases hc : c.isUpper = true
  · have hlt : c.toNat < 128 := by
      have hval : c.toNat = c.val.toNat := rfl
      simp [Char.isUpper, UInt32.le_iff_toNat_le] at hc
      omega
    have hall : ∀ n < 128, (Char.ofNat n).isUpper = true → (Char.ofNat n).toLower.isLower = true := by
      decide
    exact .inr (by simpa using hall c.toNat hlt (by simpa using hc))
  · exact .inl (by rw [Char.toLower, dif_neg (by simpa [Char.isUpper] using hc)])

/-- What holds of the characters of a text and of small letters holds of the text in lower case. -/
theorem forall_lowerCase {p : Char → Prop} (hlower : ∀ c, isCanonicalChar c = true → p c)
    (h : ∀ c ∈ cs, p c) :
    ∀ c ∈ lowerCase cs, p c ∧ c.toLower = c := by
  intro d hd
  obtain ⟨c, hc, rfl⟩ := List.mem_map.mp hd
  rcases toLower_eq_or c with heq | hlow
  · rw [heq]
    exact ⟨h c hc, heq⟩
  · have hcanonical : isCanonicalChar c.toLower = true := by simp [isCanonicalChar, hlow]
    exact ⟨hlower _ hcanonical, (isCanonicalChar_spec hcanonical).2.2.1⟩

/-! ## What is read -/

theorem readableName_scanAttribute (h : cs.head? ≠ some '/') (hne : (scanAttribute cs).1 ≠ "") :
    ReadableName (scanAttribute cs).1 := by
  have hname : (scanAttribute cs).1 = String.ofList (lowerCase (scanAttributeName cs).1) := by
    rw [scanAttribute]
    simp only
    split <;> rfl
  have hchars := forall_lowerCase (fun c hc => (isCanonicalChar_spec hc).1)
    (isNameChar_scanAttributeName cs)
  refine ⟨hne, ?_, by rw [hname, String.toList_ofList]; exact hchars⟩
  rw [hname, String.toList_ofList]
  obtain ⟨r, hr⟩ := scanAttributeName_prefix cs
  rcases hscan : (scanAttributeName cs).1 with _ | ⟨c, name⟩
  · simp [lowerCase]
  · rw [hscan] at hr
    have hc : c ≠ '/' := fun hc => h (by rw [← hr, hc]; rfl)
    rw [lowerCase, List.map_cons, List.head?_cons]
    intro heq
    rcases toLower_eq_or c with hlow | hlow
    · exact hc (hlow ▸ Option.some.inj heq)
    · rw [Option.some.inj heq] at hlow
      exact absurd hlow (by decide)

theorem forall_addNew {p : String × String → Prop} {attributes : List (String × String)}
    {a : String × String}
    (h : ∀ b ∈ attributes, p b) (ha : a.1 ≠ "" → p a) : ∀ b ∈ addNew attributes a, p b := by
  unfold addNew
  split
  · exact h
  · rename_i hnew
    simp only [Bool.or_eq_true, decide_eq_true_eq, not_or] at hnew
    exact List.forall_mem_append.mpr ⟨h, List.forall_mem_singleton.mpr (ha hnew.1)⟩

theorem readableName_scanAttributes : ∀ (fuel : Nat) {attributes : List (String × String)}
    (cs : List Char),
    (∀ a ∈ attributes, ReadableName a.1) → ∀ a ∈ (scanAttributes fuel attributes cs).1, ReadableName a.1
  | 0, _, _, h => h
  | fuel + 1, attributes, cs, h => by
    rw [scanAttributes]
    split
    · exact h
    · exact h
    · exact h
    · exact readableName_scanAttributes fuel _ h
    · rename_i _ hslash
      have hhead : (cs.dropWhile isAsciiBlank).head? ≠ some '/' := fun hhead => by
        obtain ⟨r, hr⟩ := List.head?_eq_some_iff.mp hhead
        exact hslash r hr
      exact readableName_scanAttributes fuel _
        (forall_addNew (a := ((scanAttribute (cs.dropWhile isAsciiBlank)).1, _)) h
        (readableName_scanAttribute hhead))

/-- A node that its own markup closes. -/
def NodeData.Closable : NodeData → Prop
  | .element e => trim e.tag.toList = e.tag.toList
  | .doctype s => ¬ "--".toList <+: s.toList
  | _ => True

instance : DecidablePred NodeData.Closable
  | .element e => inferInstanceAs (Decidable (trim e.tag.toList = e.tag.toList))
  | .doctype s => inferInstanceAs (Decidable (¬ "--".toList <+: s.toList))
  | .root | .fragment | .text _ | .comment _ => .isTrue trivial

/-- A piece that can be written out. -/
def Event.Loose : Event → Prop
  | .whole t => Tree.Loose [t]
  | .start e => e.Readable ∧ e.isVoid = false ∧ e.isRaw = false
  | .stop _ => True

theorem loose_opened {selfClosing : Bool} (h : e.Readable) : (e.opened selfClosing cs).1.Loose := by
  rw [Element.opened]
  split
  · rename_i hclosed
    rcases hvoid : e.isVoid with _ | _
    · rcases hraw : e.isRaw with _ | _
      · exact .element h hvoid hraw .nil .nil
      · exact .raw h hraw (.inl rfl) .nil
    · exact .void h hvoid .nil
  · rename_i hopen
    simp only [Bool.or_eq_true, not_or, Bool.not_eq_true] at hopen
    split
    · rename_i hraw
      refine .raw h hraw ?_ .nil
      split
      · exact .inl rfl
      · rename_i hne
        refine .inr ⟨_, fun h0 => hne (by simpa using congrArg String.toList h0), rfl, ?_⟩
        rw [String.toList_ofList]
        exact not_infix_scanRaw (by simp) _
    · rename_i hraw
      exact ⟨h, hopen.2, by simpa using hraw⟩

theorem element_mem_opened (e : Element) (selfClosing : Bool) (cs : List Char) :
    .element e ∈ (e.opened selfClosing cs).1.data := by
  rw [Element.opened]
  split
  · rw [data_leaf]
    exact List.mem_singleton_self _
  · split
    · simp [Event.data, Tree.dataAll_node]
    · exact List.mem_singleton_self _

theorem isTagNameEnd_of_isAlpha {c : Char} (h : c.isAlpha = true) : isTagNameEnd c = false := by
  by_contra hend
  simp only [Bool.not_eq_false, isTagNameEnd, isAsciiBlank, Bool.or_eq_true, decide_eq_true_eq] at hend
  rcases hend with ((((((rfl | rfl) | rfl) | rfl) | rfl) | rfl) | rfl)
  all_goals exact absurd h (by decide)

theorem loose_readElement (hletter : cs.head?.any Char.isAlpha = true)
    (h : ∀ data ∈ (readElement cs).1.data, data.Closable) : (readElement cs).1.Loose := by
  set name := cs.takeWhile (!isTagNameEnd ·) with hname
  set u := cs.dropWhile (!isTagNameEnd ·) with hu
  obtain ⟨attributes, selfClosing, rest, hscan⟩ : ∃ attributes selfClosing rest,
      scanAttributes (u.length + 1) [] u = (attributes, selfClosing, rest) := ⟨_, _, _, rfl⟩
  have hchars : ∀ c ∈ name, isTagNameEnd c = false := fun c hc => by
    simpa using List.mem_takeWhile_imp hc
  have hends : u.head?.all isTagNameEnd = true := by
    rw [hu]
    have := List.head?_dropWhile_not (!isTagNameEnd ·) cs
    rcases hhead : (cs.dropWhile (!isTagNameEnd ·)).head? with _ | c <;> rw [hhead] at this
    · rfl
    · simpa using this
  have hread := readElement_eq hchars hends hscan
  rw [show name ++ u = cs from List.takeWhile_append_dropWhile] at hread
  rw [hread] at h ⊢
  have htag : (Element.ofTag (String.ofList name)).tag.toList = lowerCase name := by
    rw [Element.ofTag, String.toList_ofList, String.toList_ofList]
  refine loose_opened ⟨?_, ?_, h _ (element_mem_opened _ _ _), ?_, ?_⟩
  · rw [htag, hname]
    rcases cs with _ | ⟨c, cs⟩
    · cases hletter
    · rw [List.takeWhile_cons_of_pos (by simpa using isTagNameEnd_of_isAlpha hletter), lowerCase,
        List.map_cons]
      rcases toLower_eq_or c with heq | hlow
      · exact heq.symm ▸ hletter
      · exact isAlpha_of_isLower hlow
  · rw [htag]
    exact forall_lowerCase (fun c hc => (isCanonicalChar_spec hc).2.1) hchars
  · have hnone : ∀ a ∈ ([] : List (String × String)), ReadableName a.1 := fun _ h =>
      absurd h List.not_mem_nil
    have := readableName_scanAttributes (u.length + 1) u hnone
    rw [hscan] at this
    exact this
  · have := nodup_scanAttributes (u.length + 1) [] u List.nodup_nil
    rw [hscan] at this
    exact this

theorem loose_readEvent (h : ∀ data ∈ (readEvent cs).1.data, data.Closable) :
    (readEvent cs).1.Loose := by
  unfold readEvent at h ⊢
  split
  · split
    · rename_i s rest hcut
      have hs := not_infix_cut (by decide) hcut
      rw [← String.toList_ofList (l := s)] at hs
      exact .comment hs .nil
    · rename_i body _ hcut
      have hs := not_infix_of_cut_eq_none hcut
      rw [← String.toList_ofList (l := body)] at hs
      exact .comment hs .nil
  · rename_i body _
    simp only [data_leaf, List.mem_singleton, forall_eq] at h
    refine .doctype ?_ ?_ h .nil
    · rw [String.toList_ofList, trim_trim]
    · rw [String.toList_ofList]
      refine fun hmem => ?_
      have := List.mem_takeWhile_imp ((isInfix_trim _).subset hmem)
      simp at this
  · trivial
  · split
    · rename_i hletter
      simp only [if_pos hletter] at h
      exact loose_readElement hletter h
    · exact .text trivial .nil
  · exact .text trivial .nil

/-! ## What is put together -/

theorem Tree.Loose.cons (ht : Loose [t]) (hts : Loose ts) : Loose (t :: ts) := by
  cases ht with
  | text h1 => exact .text h1 hts
  | comment h1 => exact .comment h1 hts
  | doctype h1 h2 h3 => exact .doctype h1 h2 h3 hts
  | void h1 h2 => exact .void h1 h2 hts
  | raw h1 h2 h3 => exact .raw h1 h2 h3 hts
  | element h1 h2 h3 h4 => exact .element h1 h2 h3 h4 hts

theorem Tree.loose_of_forall (h : ∀ t ∈ ts, Loose [t]) : Loose ts := by
  induction ts with
  | nil => exact .nil
  | cons t ts ih =>
    rw [List.forall_mem_cons] at h
    exact h.1.cons (ih h.2)

/-- An open element that can be written out with what is inside of it. -/
def Pending.Loose (p : Pending) : Prop :=
  (p.element.Readable ∧ p.element.isVoid = false ∧ p.element.isRaw = false) ∧ ∀ t ∈ p.inside, Tree.Loose [t]

theorem buildInvariant_loose : BuildInvariant (fun t => Tree.Loose [t]) Pending.Loose where
  fill hp ht := ⟨hp.1, List.forall_mem_cons.mpr ⟨ht, hp.2⟩⟩
  close := by
    rintro p ⟨⟨hreadable, hvoid, hraw⟩, hinside⟩
    have hall : Tree.Loose p.inside.reverse :=
      Tree.loose_of_forall fun t ht => hinside t (List.mem_reverse.mp ht)
    exact .element hreadable hvoid hraw hall .nil

/-- Pieces that can be written out make up trees that can be. -/
theorem loose_foldl : ∀ (es : List Event) {b : Builder}, (∀ event ∈ es, event.Loose) →
    b.Meets (fun t => Tree.Loose [t]) Pending.Loose →
      (es.foldl Builder.step b).Meets (fun t => Tree.Loose [t]) Pending.Loose
  | [], _, _, h => h
  | event :: es, _, hes, h => by
    rw [List.forall_mem_cons] at hes
    refine loose_foldl es hes.2 ?_
    rcases event with t | e | tag
    · exact h.add buildInvariant_loose hes.1
    · exact h.start ⟨hes.1, fun _ ht => absurd ht List.not_mem_nil⟩
    · exact h.stop buildInvariant_loose tag

/-- What is read can be written out, if all of it is closed by its own markup. -/
theorem loose_parse (h : ∀ data ∈ Tree.dataAll (Tree.parse cs), data.Closable) :
    Tree.Loose (Tree.parse cs) := by
  have hevents : ∀ event ∈ events cs, event.Loose := by
    intro event hevent
    obtain ⟨cs', rfl⟩ := mem_events hevent
    exact loose_readEvent fun data hdata =>
      h data ((data_parse cs).mem_iff.mpr (List.mem_flatMap_of_mem hevent hdata))
  exact Tree.loose_of_forall ((loose_foldl _ hevents .empty).finish buildInvariant_loose)

/-! ## Documents -/

namespace Document

theorem toHtml_parse (html : List Char) : (parse html).toHtml = Tree.renderAll (Tree.parse html) := by
  rw [toHtml, innerHtml, subtree_parse]
  rfl

/-- The markup of a document is the markup of the document that is parsed from it, if no doctype
begins like a comment and no tag ends with a blank. -/
theorem toHtml_parse_toHtml {html : List Char}
    (h : ∀ data ∈ Tree.dataAll (Tree.parse html), data.Closable) :
    (parse (parse html).toHtml).toHtml = (parse html).toHtml := by
  obtain ⟨hlegible, hmarkup⟩ := (loose_parse h).joinAll
  calc (parse (parse html).toHtml).toHtml
      = Tree.renderAll (Tree.parse (Tree.renderAll (Tree.joinAll (Tree.parse html)))) := by
        rw [toHtml_parse, toHtml_parse, hmarkup]
    _ = Tree.renderAll (Tree.unsetAll (Tree.joinAll (Tree.parse html))) := by
        rw [parse_renderAll hlegible]
    _ = Tree.renderAll (Tree.joinAll (Tree.parse html)) := hlegible.renderAll_unsetAll
    _ = (parse html).toHtml := by rw [hmarkup, toHtml_parse]

/-- Markup with an attribute given twice, a bracket that opens nothing, an end tag too many, and
elements and a comment that are not closed. -/
def untidy : List Char :=
  "<! x><P>1<b X=1 x='2'> &lt; 2 < 3</p></i>4<p><!-- c".toList

theorem toHtml_parse_toHtml_untidy : (∀ data ∈ Tree.dataAll (Tree.parse untidy), data.Closable) ∧
    (parse (parse untidy).toHtml).toHtml = (parse untidy).toHtml := by
  have hparse : Tree.parse untidy = [.leaf (.doctype "x"),
      .node (.element { tag := "p" }) [.leaf (.text "1"),
        .node (.element { tag := "b", attributes := [("x", "1")] })
          [.leaf (.text " < 2 "), .leaf (.text "<"), .leaf (.text " 3")]],
      .leaf (.text "4"), .node (.element { tag := "p" }) [.leaf (.comment " c")]] := rfl
  have hclosable : ∀ data ∈ Tree.dataAll (Tree.parse untidy), data.Closable := by
    rw [hparse]
    simp only [Tree.leaf, Tree.dataAll_node, Tree.dataAll_nil]
    decide
  exact ⟨hclosable, toHtml_parse_toHtml hclosable⟩

/-- The blank of this doctype is lost, and with it what keeps the doctype from being a comment. -/
theorem toHtml_parse_toHtml_blank_doctype :
    (parse (parse "<! -->".toList).toHtml).toHtml ≠ (parse "<! -->".toList).toHtml := by
  rw [toHtml_parse, toHtml_parse]
  decide

end Document

end LiveMarkup
