import LiveMarkup.Proofs.Template.Regular

/-!
# Markup without expressions

Markup in which no group of braces opens stays as it is (`bindMarkup_eq_self`), whatever else is wrong
with it.  Each piece is given back with what is taken along with it, and nothing is taken twice or left
out (`bindPiece_eq_self`), so the rest is markup without groups again.
-/

namespace LiveMarkup

open Text

variable {cs s : List Char} {t : StartTag} {p : TagPart}

theorem withBinding_eq_source (h : '\x7b' ∉ p.source) : p.withBinding = p.source := by
  rcases p with gap | ⟨gap, name⟩ | ⟨gap, name, link, opening, raw, closing⟩ | s
  · rfl
  · rfl
  · have hraw : '\x7b' ∉ raw := fun hmem => h (by simp [TagPart.source, hmem])
    rw [← TagPart.source_bound, bound_eq_self (singleExpression?_eq_none hraw)]
  · rfl

/-- A tag is put together again from its name and its parts. -/
theorem source_ofSource (h : '\x7b' ∉ s) : (StartTag.ofSource s).source = s := by
  unfold StartTag.ofSource
  simp only
  set isPart := fun c : Char => !(isAsciiBlank c || decide (c = '>') || decide (c = '/'))
  set rest := (s.drop 1).dropWhile isPart
  have hrest : '\x7b' ∉ rest := fun hmem =>
    h (List.mem_of_mem_drop ((List.dropWhile_sublist isPart).subset hmem))
  have hsource : (tagParts s.length rest).flatMap TagPart.source = rest := (tagParts_eq s.length rest).1
  have hparts : (tagParts s.length rest).flatMap TagPart.withBinding =
      (tagParts s.length rest).flatMap TagPart.source := by
    rw [← hsource] at hrest
    refine List.flatMap_congr fun p hp => withBinding_eq_source fun hmem => hrest ?_
    exact List.mem_flatMap.mpr ⟨p, hp, hmem⟩
  rw [hparts, hsource, List.append_assoc, List.takeWhile_append_dropWhile, List.take_append_drop]

theorem bindText_eq_self (h : '\x7b' ∉ s) : bindText s = s := by
  rw [bindText, hasExpression_eq_false h, if_neg Bool.false_ne_true]

/-- What is taken along with a tag is given back with it. -/
theorem bindElement_eq_self (h : '\x7b' ∉ cs) :
    (bindElement t cs).1 ++ (bindElement t cs).2 = t.source ++ cs := by
  unfold bindElement
  simp only
  split
  · -- a script without an end tag takes all that follows
    rcases hscan : scanToEndTag? t.name cs with _ | ⟨body, rest⟩
    · exact List.append_nil _
    · rw [scanToEndTag?_eq hscan, ← List.append_assoc]
      rfl
  · split
    · rfl
    · split
      · rcases hscan : scanToEndTag? t.name cs with _ | ⟨body, rest⟩
        · exact congrArg (· ++ cs) (List.append_nil _)
        · rw [scanToEndTag?_eq hscan, ← List.append_assoc]
          rfl
      · split
        · rename_i htext
          have hscan : '\x7b' ∉ (scanText cs.length cs).1 := fun hmem => h <| by
            rw [scanText_eq cs.length cs]
            exact List.mem_append_left _ hmem
          rw [hasExpression_eq_false hscan, Bool.and_false] at htext
          cases htext
        · rfl

/-- A piece is given back as it is. -/
theorem bindPiece_eq_self (h : '\x7b' ∉ cs) : (bindPiece cs).1 ++ (bindPiece cs).2 = cs := by
  unfold bindPiece
  split
  · rename_i body
    split
    · rename_i s rest hcut
      rw [cut_eq hcut]
      simp
    · exact List.append_nil _
  · simp only [List.append_assoc, List.cons_append, List.take_append_drop,
      List.takeWhile_append_dropWhile]
  · rename_i rest _ _
    split
    · split
      · rename_i tag rest' hscan
        have hsum := scanTag_eq hscan
        rw [hsum, List.mem_cons, List.mem_append, not_or, not_or] at h
        rw [bindElement_eq_self h.2.2, source_ofSource (by simpa using h.2.1), hsum, List.cons_append]
      · exact List.append_nil _
    · rfl
  · have hsum := scanText_eq cs.length cs
    have htext : '\x7b' ∉ (scanText cs.length cs).1 := fun hmem => h <| by
      rw [hsum]
      exact List.mem_append_left _ hmem
    simp only
    rw [bindText_eq_self htext, ← hsum]

/-- Markup without groups of braces stays as it is, also where tags, quotes, comments and scripts are
never closed. -/
theorem bindMarkup_eq_self (h : '\x7b' ∉ cs) : bindMarkup cs = cs := by
  induction hlen : cs.length using Nat.strong_induction_on generalizing cs with
  | _ n ih =>
    rcases eq_or_ne cs [] with rfl | hne
    · rfl
    · have hpiece := bindPiece_eq_self h
      have hrest : '\x7b' ∉ (bindPiece cs).2 := fun hmem => h <| by
        rw [← hpiece]
        exact List.mem_append_right _ hmem
      rw [bindMarkup_eq hne, ih _ (hlen ▸ length_bindPiece_lt hne) hrest rfl, hpiece]

/-- A tag, a comment, a script and a quote that are not closed. -/
theorem bindMarkup_eq_self_malformed :
    '\x7b' ∉ "a <b <!-- c --></p x='1\"><script> d <e f=\"> <!-- g".toList ∧
      bindMarkup "a <b <!-- c --></p x='1\"><script> d <e f=\"> <!-- g".toList =
        "a <b <!-- c --></p x='1\"><script> d <e f=\"> <!-- g".toList := by
  have h : '\x7b' ∉ "a <b <!-- c --></p x='1\"><script> d <e f=\"> <!-- g".toList := by decide
  exact ⟨h, bindMarkup_eq_self h⟩

end LiveMarkup
