import LiveMarkup.Markup.Entity

/-!
# Escaped texts decode to themselves

A character that is written as a reference is read back from it (`readReference?_referenceOf`), so
every escaping that replaces the ampersand is undone (`decodeEntities_escape`).  A text without
ampersands has no references (`decodeEntities_eq_self`).
-/

namespace LiveMarkup

open Text

/-- The characters that have a reference of their own. -/
def referenced : List Char := ['&', '<', '>', '"', '\'']

variable {special : List Char} {c : Char} {cs : List Char}

theorem escape_cons (special : List Char) (c : Char) (cs : List Char) :
    escape special (c :: cs) = (if c ∈ special then referenceOf c else [c]) ++ escape special cs := by
  simp [escape]

/-- What stands after the ampersand of a reference is read as the character. -/
theorem readReference?_referenceOf (hc : c ∈ referenced) (cs : List Char) :
    ∃ r, referenceOf c = '&' :: r ∧ readReference? (r ++ cs) = some (c, cs) := by
  simp only [referenced, List.mem_cons, List.not_mem_nil, or_false] at hc
  rcases hc with rfl | rfl | rfl | rfl | rfl
  · exact ⟨"amp;".toList, by decide, rfl⟩
  · exact ⟨"lt;".toList, by decide, rfl⟩
  · exact ⟨"gt;".toList, by decide, rfl⟩
  · exact ⟨"quot;".toList, by decide, rfl⟩
  · exact ⟨"#39;".toList, by decide, rfl⟩

theorem decodeFrom_escape (hamp : '&' ∈ special) (hall : ∀ c ∈ special, c ∈ referenced) :
    ∀ {fuel : Nat} {cs : List Char}, cs.length ≤ fuel → decodeFrom fuel (escape special cs) = cs
  | 0, cs, h => by
    obtain rfl := List.length_eq_zero_iff.mp (Nat.le_zero.mp h)
    rfl
  | _ + 1, [], _ => rfl
  | fuel + 1, c :: cs, h => by
    have ih := decodeFrom_escape hamp hall (Nat.le_of_succ_le_succ h)
    rw [escape_cons]
    split
    · rename_i hc
      obtain ⟨r, hr, hread⟩ := readReference?_referenceOf (hall c hc) (escape special cs)
      rw [hr, List.cons_append, decodeFrom, if_pos rfl, hread]
      simp only [ih]
    · rename_i hc
      have hne : c ≠ '&' := fun h => hc (h ▸ hamp)
      rw [List.singleton_append, decodeFrom, if_neg hne, ih]

theorem length_le_escape (hall : ∀ c ∈ special, c ∈ referenced) (cs : List Char) :
    cs.length ≤ (escape special cs).length := by
  induction cs with
  | nil => exact Nat.le_refl _
  | cons c cs ih =>
    rw [escape_cons, List.length_append, List.length_cons]
    have hpos : 1 ≤ (if c ∈ special then referenceOf c else [c]).length := by
      split
      · rename_i hc
        obtain ⟨r, hr, -⟩ := readReference?_referenceOf (hall c hc) []
        rw [hr]
        exact Nat.le_add_left 1 _
      · exact Nat.le_refl 1
    omega

theorem decodeEntities_escape (hamp : '&' ∈ special) (hall : ∀ c ∈ special, c ∈ referenced)
    (cs : List Char) : decodeEntities (escape special cs) = cs :=
  decodeFrom_escape hamp hall (length_le_escape hall cs)

theorem decodeFrom_eq_self : ∀ {fuel : Nat} {cs : List Char}, '&' ∉ cs → decodeFrom fuel cs = cs
  | 0, _, _ => rfl
  | _ + 1, [], _ => rfl
  | fuel + 1, c :: cs, h => by
    rw [List.mem_cons, not_or] at h
    rw [decodeFrom, if_neg (Ne.symm h.1), decodeFrom_eq_self h.2]

theorem decodeEntities_eq_self (h : '&' ∉ cs) : decodeEntities cs = cs :=
  decodeFrom_eq_self h

theorem decodeEntities_ne_nil (h : cs ≠ []) : decodeEntities cs ≠ [] := by
  obtain ⟨c, cs, rfl⟩ := List.exists_cons_of_ne_nil h
  rw [decodeEntities, List.length_cons, decodeFrom]
  split
  · split <;> exact List.cons_ne_nil _ _
  · exact List.cons_ne_nil _ _

/-- A character that no reference holds stays outside an escaped text. -/
theorem not_mem_escape (hspecial : ∀ d ∈ special, c ∉ referenceOf d) (hc : c ∈ special ∨ c ∉ cs) :
    c ∉ escape special cs := by
  rw [escape, List.mem_flatMap]
  rintro ⟨d, hd, hmem⟩
  split at hmem
  · exact hspecial d ‹_› hmem
  · obtain rfl := List.mem_singleton.mp hmem
    exact hc.elim (fun h => absurd h ‹_›) fun h => absurd hd h

/-! ## The escapings of markup -/

theorem decodeEntities_escapeText (cs : List Char) : decodeEntities (escapeText cs) = cs :=
  decodeEntities_escape (by simp) (by simp [referenced]) cs

theorem decodeEntities_escapeAttribute (cs : List Char) : decodeEntities (escapeAttribute cs) = cs :=
  decodeEntities_escape (by simp) (by simp [referenced]) cs

theorem decodeEntities_escapeQuote (cs : List Char) : decodeEntities (escapeQuote cs) = cs :=
  decodeEntities_escape (by simp) (by simp [referenced]) cs

theorem decodeEntities_escapeAll (cs : List Char) : decodeEntities (escapeAll cs) = cs :=
  decodeEntities_escape (by simp [referenced]) (fun _ h => h) cs

theorem not_mem_escapeText (cs : List Char) : '<' ∉ escapeText cs :=
  not_mem_escape (by simp [referenceOf]) (.inl (by simp))

theorem not_mem_escapeAttribute (cs : List Char) : '"' ∉ escapeAttribute cs :=
  not_mem_escape (by simp [referenceOf]) (.inl (by simp))

theorem not_mem_escapeQuote (cs : List Char) : '"' ∉ escapeQuote cs :=
  not_mem_escape (by simp [referenceOf]) (.inl (by simp))

theorem not_mem_escapeAll (hc : c = '<' ∨ c = '"') (cs : List Char) : c ∉ escapeAll cs := by
  rcases hc with rfl | rfl <;> exact not_mem_escape (by simp [referenceOf]) (.inl (by simp))

end LiveMarkup
