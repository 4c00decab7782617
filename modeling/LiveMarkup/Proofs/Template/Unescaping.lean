import LiveMarkup.Proofs.Markup.Escaping
import LiveMarkup.Proofs.Template.Scanning
import LiveMarkup.Template.Check

/-!
# References that are replaced one after the other

The value of a binding is decoded by one replacement for each reference.  If the ampersands of a text
were escaped, a replacement undoes the escaping of its character and no more (`replaceAll_escape`).
Once they are no longer, what looks like a reference in the text itself is replaced too: a text comes
back only if it has no such reference (`bindingText_bindingValue_escapeAll`).

To escape by one replacement for each character comes to the same as to escape all at once, if the
ampersand is the first (`escapeQuote_eq_replaceAll`), and all escapings are undone by decoding
(`decodeEntities_escaped`).
-/

namespace LiveMarkup

open Text

variable {mark new cs s u rest : List Char} {c d : Char} {special : List Char}

/-! ## Replacing -/

theorem replaceAll_go_congr (hne : mark ≠ []) : ∀ {fuel fuel' : Nat} {cs : List Char},
    cs.length ≤ fuel → cs.length ≤ fuel' → replaceAll.go mark new fuel cs = replaceAll.go mark new fuel' cs
  | 0, fuel', cs, h, _ => by
    obtain rfl := List.length_eq_zero_iff.mp (Nat.le_zero.mp h)
    obtain ⟨m, mark, rfl⟩ := List.exists_cons_of_ne_nil hne
    cases fuel' <;> rfl
  | fuel, 0, cs, _, h => by
    obtain rfl := List.length_eq_zero_iff.mp (Nat.le_zero.mp h)
    obtain ⟨m, mark, rfl⟩ := List.exists_cons_of_ne_nil hne
    cases fuel <;> rfl
  | fuel + 1, fuel' + 1, cs, h, h' => by
    rw [replaceAll.go, replaceAll.go]
    rcases hcut : cut? mark cs with _ | ⟨a, b⟩
    · rfl
    · have hlen := congrArg List.length (cut_eq hcut)
      have hpos := List.length_pos_of_ne_nil hne
      rw [List.length_append, List.length_append] at hlen
      exact congrArg (a ++ new ++ ·) (replaceAll_go_congr hne (by omega) (by omega))

theorem replaceAll_mark (hne : mark ≠ []) (u : List Char) :
    replaceAll mark new (mark ++ u) = new ++ replaceAll mark new u := by
  obtain ⟨m, mark, rfl⟩ := List.exists_cons_of_ne_nil hne
  have hcut : cut? (m :: mark) (m :: mark ++ u) = some ([], u) := by
    rw [List.cons_append, cut?, after?_eq_some_iff.mpr (List.cons_append ..).symm]
  rw [replaceAll, List.cons_append, List.length_cons, replaceAll.go, ← List.cons_append, hcut]
  exact congrArg (new ++ ·) (replaceAll_go_congr hne (by simp) le_rfl)

theorem replaceAll_cons (hne : mark ≠ []) (h : after? mark (c :: cs) = none) :
    replaceAll mark new (c :: cs) = c :: replaceAll mark new cs := by
  rw [replaceAll, List.length_cons, replaceAll.go, cut?, h]
  simp only
  rw [replaceAll, replaceAll_go_congr hne (le_refl cs.length) (Nat.le_succ _), replaceAll.go]
  rcases hcut : cut? mark cs with _ | ⟨a, b⟩
  · rfl
  · rfl

/-- A text without marks stays. -/
theorem replaceAll_passes (hne : mark ≠ []) (h : Passes mark u s) :
    replaceAll mark new (s ++ u) = s ++ replaceAll mark new u := by
  induction s with
  | nil => rfl
  | cons c s ih =>
    have hc : after? mark (c :: (s ++ u)) = none := h.1
    rw [List.cons_append, replaceAll_cons hne hc, ih h.2, List.cons_append]

/-! ## References -/

theorem referenceOf_ne_nil (c : Char) : referenceOf c ≠ [] := by
  unfold referenceOf
  split <;> simp

/-- What is referred to by an ampersand, a name and a semicolon. -/
theorem exists_referenceOf (hd : d ∈ referenced) : ∃ name, referenceOf d = '&' :: name ∧ '&' ∉ name := by
  simp only [referenced, List.mem_cons, List.not_mem_nil, or_false] at hd
  rcases hd with rfl | rfl | rfl | rfl | rfl <;> exact ⟨_, rfl, by decide⟩

theorem passes_referenceOf (hc : c ∈ referenced) (hd : d ∈ referenced) (hne : c ≠ d) (u : List Char) :
    Passes (referenceOf d) u (referenceOf c) := by
  simp only [referenced, List.mem_cons, List.not_mem_nil, or_false] at hc hd
  rcases hc with rfl | rfl | rfl | rfl | rfl <;> rcases hd with rfl | rfl | rfl | rfl | rfl <;>
    first
    | exact absurd rfl hne
    | simp [Passes, referenceOf, after?]

/-- What stands in an escaped text without an ampersand stands in the text itself. -/
theorem prefix_of_escape (hspecial : ∀ c ∈ special, c ∈ referenced) (hs : '&' ∉ s)
    (h : s <+: escape special cs) : s <+: cs := by
  induction s generalizing cs with
  | nil => exact List.nil_prefix
  | cons a s ih =>
    rcases cs with _ | ⟨c, cs⟩
    · exact h
    rw [List.mem_cons, not_or] at hs
    rw [escape_cons] at h
    split_ifs at h with hc
    · obtain ⟨name, hname, -⟩ := exists_referenceOf (hspecial c hc)
      rw [hname, List.cons_append, List.cons_prefix_cons] at h
      exact absurd h.1.symm hs.1
    · rw [List.singleton_append, List.cons_prefix_cons] at h
      rw [h.1]
      exact (List.prefix_cons_inj c).mpr (ih hs.2 h.2)

/-- To replace a reference by its character undoes the escaping of this character. -/
theorem replaceAll_escape (hd : d ∈ special) (hspecial : ∀ c ∈ special, c ∈ referenced)
    (h : '&' ∈ special ∨ ¬ referenceOf d <:+: cs) :
    replaceAll (referenceOf d) [d] (escape special cs) = escape (special.filter (· ≠ d)) cs := by
  have hne := referenceOf_ne_nil d
  induction cs with
  | nil => rfl
  | cons c cs ih =>
    have ih := ih (h.imp_right fun h hcs => h (hcs.trans (List.suffix_cons c cs).isInfix))
    rw [escape_cons, escape_cons]
    by_cases hc : c ∈ special
    · rw [if_pos hc]
      rcases eq_or_ne c d with rfl | hcd
      · rw [replaceAll_mark hne, ih, if_neg (by simp)]
      · rw [replaceAll_passes hne (passes_referenceOf (hspecial c hc) (hspecial d hd) hcd _), ih,
          if_pos (by simp [hc, hcd])]
    · have hpass : Passes (referenceOf d) (escape special cs) [c] := by
        refine ⟨?_, trivial⟩
        obtain ⟨name, hname, hamp⟩ := exists_referenceOf (hspecial d hd)
        rw [hname, List.singleton_append, after?]
        split_ifs with hcamp
        · rcases hafter : after? name (escape special cs) with _ | rest
          · rfl
          · have hprefix : name <+: cs :=
              prefix_of_escape hspecial hamp ⟨rest, (after?_eq_some_iff.mp hafter).symm⟩
            refine absurd ?_ (h.resolve_left (hcamp ▸ hc))
            rw [hname, hcamp]
            exact ((List.prefix_cons_inj c).mpr hprefix).isInfix
        · rfl
      rw [if_neg hc, if_neg (by simp [hc]), replaceAll_passes hne hpass, ih]

theorem escape_nil (cs : List Char) : escape [] cs = cs := by
  simp [escape]

/-! ## Bindings -/

/-- A text in which nothing looks like a reference that is replaced in the texts of bindings. -/
def Unreferring (cs : List Char) : Prop :=
  ∀ d ∈ ['<', '>', '\''], ¬ referenceOf d <:+: cs

theorem Unreferring.of_not_mem (h : '&' ∉ cs) : Unreferring cs := by
  intro d hd hcs
  have hamp : '&' ∈ referenceOf d := by
    simp only [List.mem_cons, List.not_mem_nil, or_false] at hd
    rcases hd with rfl | rfl | rfl <;> exact List.mem_cons_self
  exact h (hcs.subset hamp)

theorem bindingValue_escapeAll (cs : List Char) :
    bindingValue (escapeAll cs) = escape ['<', '>', '\''] cs := by
  have hquot : replaceAll "&quot;".toList ['"'] (escape ['&', '<', '>', '"', '\''] cs) =
      escape ['&', '<', '>', '\''] cs :=
    replaceAll_escape (d := '"') (by simp) (by simp [referenced]) (.inl (by simp))
  have hamp : replaceAll "&amp;".toList ['&'] (escape ['&', '<', '>', '\''] cs) =
      escape ['<', '>', '\''] cs :=
    replaceAll_escape (d := '&') (by simp) (by simp [referenced]) (.inl (by simp))
  rw [bindingValue, escapeAll, hquot, hamp]

/-- An escaped text comes back, unless something in it looks like a reference. -/
theorem bindingText_bindingValue_escapeAll (h : Unreferring cs) :
    bindingText (bindingValue (escapeAll cs)) = cs := by
  have hlt : replaceAll "&lt;".toList ['<'] (escape ['<', '>', '\''] cs) = escape ['>', '\''] cs :=
    replaceAll_escape (d := '<') (by simp) (by simp [referenced]) (.inr (h '<' (by simp)))
  have hgt : replaceAll "&gt;".toList ['>'] (escape ['>', '\''] cs) = escape ['\''] cs :=
    replaceAll_escape (d := '>') (by simp) (by simp [referenced]) (.inr (h '>' (by simp)))
  have happos : replaceAll "&#39;".toList ['\''] (escape ['\''] cs) = escape [] cs :=
    replaceAll_escape (d := '\'') (by simp) (by simp [referenced]) (.inr (h '\'' (by simp)))
  rw [bindingText, bindingValue_escapeAll, hlt, hgt, happos, escape_nil]

/-! ## Escaping by replacements -/

/-- To replace a character is to replace each of its occurrences by itself. -/
theorem replaceAll_singleton (c : Char) (new cs : List Char) :
    replaceAll [c] new cs = cs.flatMap fun d => if d = c then new else [d] := by
  induction cs with
  | nil => rfl
  | cons d cs ih =>
    rw [List.flatMap_cons, ← ih]
    rcases eq_or_ne d c with rfl | hne
    · rw [if_pos rfl]
      exact replaceAll_mark (List.cons_ne_nil d []) cs
    · have hafter : after? [c] (d :: cs) = none := by rw [after?, if_neg hne.symm]
      rw [if_neg hne, replaceAll_cons (List.cons_ne_nil c []) hafter, List.singleton_append]

/-- The ampersand goes first, so that the ampersands of the other references are not replaced. -/
theorem escapeQuote_eq_replaceAll (s : List Char) :
    escapeQuote s = replaceAll ['"'] "&quot;".toList (replaceAll ['&'] "&amp;".toList s) := by
  rw [replaceAll_singleton, replaceAll_singleton, List.flatMap_assoc, escapeQuote, escape]
  refine List.flatMap_congr fun c _ => ?_
  rcases eq_or_ne c '&' with rfl | hamp
  · rfl
  rcases eq_or_ne c '"' with rfl | hquot
  · rfl
  rw [if_neg (by simp [hamp, hquot]), if_neg hamp, List.flatMap_singleton, if_neg hquot]

/-- Every text is what its escaped forms are decoded to: as a text between tags, as an attribute of a
document, as a text that may stand anywhere, and as an attribute of a template, where the ampersand
and the quote are replaced one after the other. -/
theorem decodeEntities_escaped (s : List Char) :
    decodeEntities (escapeText s) = s ∧ decodeEntities (escapeAttribute s) = s ∧
    decodeEntities (escapeAll s) = s ∧ decodeEntities (escapeQuote s) = s ∧
    decodeEntities (replaceAll ['"'] "&quot;".toList (replaceAll ['&'] "&amp;".toList s)) = s := by
  refine ⟨decodeEntities_escapeText s, decodeEntities_escapeAttribute s,
    decodeEntities_escapeAll s, decodeEntities_escapeQuote s, ?_⟩
  rw [← escapeQuote_eq_replaceAll, decodeEntities_escapeQuote]

/-- What already looks like a reference is escaped too. -/
example : escapeText "&lt;&#38".toList = "&amp;lt;&amp;#38".toList := by decide

end LiveMarkup
