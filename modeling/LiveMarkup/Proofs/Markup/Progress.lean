import LiveMarkup.Proofs.Markup.Reading

/-!
# Markup is read to its end

Each piece of markup takes a part of the text that is not empty (`readEvent_suffix`,
`length_readEvent_lt`), so the pieces of a text are read from all of it, one after the other
(`readThrough_events`).  Each attribute of a tag does so too (`length_scanAttribute_lt`), so the
bound on their number is never reached (`scanAttributes_eq`).
-/

namespace LiveMarkup

open Text

variable {cs : List Char} {c : Char}

/-! ## Attributes -/

/-- Where neither a blank nor the end of the tag stands, an attribute takes a character at least. -/
theorem length_scanAttribute_lt (hblank : isAsciiBlank c = false) (hend : c ≠ '>')
    (hslash : c ≠ '/') : (scanAttribute (c :: cs)).2.2.length < (c :: cs).length := by
  have hname : scanAttributeName (c :: cs) =
      if isAsciiBlank c || c = '=' || c = '>' then ([], c :: cs)
      else (c :: (scanAttributeName cs).1, (scanAttributeName cs).2) :=
    scanAttributeName.eq_3 c cs fun _ h _ => hslash h
  by_cases heq : c = '='
  · subst heq
    have hvalue := (scanAttributeValue_suffix cs).length_le
    rw [scanAttribute, hname]
    simp only [decide_true, Bool.or_true, Bool.true_or, if_true]
    rw [List.dropWhile_cons_of_neg (by decide)]
    exact Nat.lt_succ_of_le hvalue
  · have hrest := (scanAttributeName_suffix cs).length_le
    rw [scanAttribute, hname, if_neg (by simp [hblank, heq, hend])]
    dsimp only
    split
    · rename_i r hr
      have hvalue := (scanAttributeValue_suffix r).length_le
      have hdrop := (List.dropWhile_suffix isAsciiBlank (l := (scanAttributeName cs).2)).length_le
      rw [hr, List.length_cons] at hdrop
      rw [List.length_cons]
      dsimp only
      omega
    · exact Nat.lt_succ_of_le hrest

/-- More rounds than characters change nothing. -/
theorem scanAttributes_eq {fuel fuel' : Nat} {attributes : List (String × String)}
    (h : cs.length < fuel) (h' : cs.length < fuel') :
    scanAttributes fuel attributes cs = scanAttributes fuel' attributes cs := by
  induction fuel generalizing fuel' attributes cs with
  | zero => exact absurd h (Nat.not_lt_zero _)
  | succ fuel ih =>
    obtain ⟨fuel', rfl⟩ := Nat.exists_eq_add_of_lt (Nat.zero_lt_of_lt h')
    have hdrop := (List.dropWhile_suffix isAsciiBlank (l := cs)).length_le
    rw [Nat.zero_add] at h' ⊢
    rw [scanAttributes, scanAttributes]
    split
    · rfl
    · rfl
    · rfl
    · rename_i r _ hr
      rw [hr, List.length_cons] at hdrop
      exact ih (by omega) (by omega)
    · rename_i hnil hgt _ hslash
      obtain ⟨c, r, hr⟩ := List.exists_cons_of_ne_nil hnil
      have hblank : isAsciiBlank c = false := by
        have := List.head?_dropWhile_not isAsciiBlank cs
        rw [hr] at this
        simpa using this
      have hlt : (scanAttribute (c :: r)).2.2.length < (c :: r).length :=
        length_scanAttribute_lt hblank (fun h => hgt r (h ▸ hr)) fun h => hslash r (h ▸ hr)
      rw [hr] at hdrop ⊢
      have hfuel : (scanAttribute (c :: r)).2.2.length < fuel := by omega
      have hfuel' : (scanAttribute (c :: r)).2.2.length < fuel' := by omega
      exact ih hfuel hfuel'

/-! ## Pieces -/

theorem readEvent_suffix (cs : List Char) : (readEvent cs).2 <:+ cs := by
  unfold readEvent
  split
  · rename_i body
    have hbody : body <:+ '<' :: '!' :: '-' :: '-' :: body := ⟨['<', '!', '-', '-'], rfl⟩
    split
    · rename_i s rest hcut
      rw [cut_eq hcut] at hbody ⊢
      exact (List.suffix_append _ rest).trans hbody
    · exact List.nil_suffix
  · exact (scanToTagEnd_suffix _).trans ⟨['<', '!'], rfl⟩
  · exact (scanToTagEnd_suffix _).trans ⟨['<', '/'], rfl⟩
  · rename_i rest _ _ _
    split
    · exact (readElement_suffix rest).trans (List.suffix_cons '<' rest)
    · exact List.suffix_cons '<' rest
  · exact List.dropWhile_suffix _

/-- A text is read through: each piece takes a part of it, and the next one what is left. -/
inductive ReadThrough : List Char → List Event → Prop
  | nil : ReadThrough [] []
  | piece {taken rest : List Char} {event : Event} {es : List Event} : taken ≠ [] →
      readEvent (taken ++ rest) = (event, rest) → ReadThrough rest es →
      ReadThrough (taken ++ rest) (event :: es)

theorem readThrough_events (cs : List Char) : ReadThrough cs (events cs) := by
  induction hlen : cs.length using Nat.strongRecOn generalizing cs with
  | ind n ih =>
    rcases eq_or_ne cs [] with rfl | hne
    · exact .nil
    obtain ⟨taken, hcs⟩ := readEvent_suffix cs
    have hlt := length_readEvent_lt hne
    have hread : readEvent cs = ((readEvent cs).1, (readEvent cs).2) := rfl
    rw [events_of_readEvent hne hread]
    have htaken : taken ≠ [] := by
      rintro rfl
      rw [List.nil_append] at hcs
      rw [hcs] at hlt
      exact absurd hlt (lt_irrefl _)
    have hrest := ih _ (hlen ▸ hlt) _ rfl
    have hpiece : ReadThrough (taken ++ (readEvent cs).2)
        ((readEvent cs).1 :: events (readEvent cs).2) :=
      .piece htaken (by rw [hcs]) hrest
    rwa [hcs] at hpiece

end LiveMarkup
