import Mathlib
import LiveMarkup.Text.Blank

/-!
# Trimmed texts

Trimming leaves out blanks at the two ends of a text (`trim_eq`), and a text without blanks at its
ends is left as it is (`trim_trim`, `trim_eq_self`).
-/

namespace LiveMarkup

open Text

variable {cs : List Char}

/-- A text is what is left of it when it is trimmed, with blanks on both sides. -/
theorem trim_eq (cs : List Char) : ∃ a b, cs = a ++ (trim cs ++ b) ∧ (∀ c ∈ a, isBlank c = true) ∧
    ∀ c ∈ b, isBlank c = true := by
  set x := cs.dropWhile isBlank with hx
  refine ⟨cs.takeWhile isBlank, (x.reverse.takeWhile isBlank).reverse, ?_, ?_, fun c hc => ?_⟩
  · rw [trim, ← hx, ← List.reverse_append, List.takeWhile_append_dropWhile, List.reverse_reverse, hx,
      List.takeWhile_append_dropWhile]
  · exact List.all_eq_true.mp List.all_takeWhile
  · exact List.all_eq_true.mp List.all_takeWhile c (List.mem_reverse.mp hc)

theorem isInfix_trim (cs : List Char) : trim cs <:+: cs := by
  obtain ⟨a, b, h, -⟩ := trim_eq cs
  exact ⟨a, b, by rw [List.append_assoc, ← h]⟩

theorem mem_trim_or_isBlank {c : Char} (h : c ∈ cs) : c ∈ trim cs ∨ isBlank c = true := by
  obtain ⟨a, b, hcs, ha, hb⟩ := trim_eq cs
  rw [hcs, List.mem_append, List.mem_append] at h
  rcases h with h | h | h
  exacts [.inr (ha c h), .inl h, .inr (hb c h)]

theorem trim_eq_self {cs : List Char} (h : ∀ c ∈ cs, isBlank c = false) : trim cs = cs := by
  have hkeep : ∀ cs : List Char, (∀ c ∈ cs, isBlank c = false) → cs.dropWhile isBlank = cs := by
    intro cs h
    rcases cs with _ | ⟨c, cs⟩
    · rfl
    · rw [List.dropWhile_cons_of_neg (by simp [h c (by simp)])]
  rw [trim, hkeep cs h, hkeep _ fun c hc => h c (List.mem_reverse.mp hc), List.reverse_reverse]

theorem ends_of_trim {cs : List Char} (h : trim cs = cs) :
    cs.dropWhile isBlank = cs ∧ cs.reverse.dropWhile isBlank = cs.reverse := by
  have hlen := congrArg List.length h
  have h1 := List.length_dropWhile_le isBlank cs
  have h2 := List.length_dropWhile_le isBlank (cs.dropWhile isBlank).reverse
  rw [trim, List.length_reverse] at hlen
  rw [List.length_reverse] at h2
  have hfirst : cs.dropWhile isBlank = cs :=
    (List.dropWhile_suffix isBlank).eq_of_length (by omega)
  refine ⟨hfirst, (List.dropWhile_suffix isBlank).eq_of_length ?_⟩
  rw [hfirst] at hlen
  rw [hlen, List.length_reverse]

theorem not_isBlank_of_dropWhile {c : Char} (h : (c :: cs).dropWhile isBlank = c :: cs) :
    isBlank c = false := by
  by_contra hc
  rw [List.dropWhile_cons_of_pos (by simpa using hc)] at h
  have := List.length_dropWhile_le isBlank cs
  rw [h, List.length_cons] at this
  omega

theorem trim_trim (cs : List Char) : trim (trim cs) = trim cs := by
  set x := cs.dropWhile isBlank with hx
  set y := x.reverse.dropWhile isBlank with hy
  have htrim : trim cs = y.reverse := by rw [trim, ← hx, ← hy]
  have hfirst : y.reverse.dropWhile isBlank = y.reverse := by
    have hprefix : y.reverse <+: x := by
      rw [← List.reverse_suffix, List.reverse_reverse, hy]
      exact List.dropWhile_suffix isBlank
    rcases hr : y.reverse with _ | ⟨c, r⟩
    · rfl
    · rw [hr] at hprefix
      obtain ⟨z, hz⟩ := hprefix
      have hself : x.dropWhile isBlank = x := by rw [hx, List.dropWhile_idempotent]
      rw [← hz, List.cons_append] at hself
      rw [List.dropWhile_cons_of_neg (by simp [not_isBlank_of_dropWhile hself])]
  rw [htrim, trim, hfirst, List.reverse_reverse, hy, List.dropWhile_idempotent]

/-- Blanks around a text are left out with those at its ends. -/
theorem trim_surrounded {a b : List Char} (ha : ∀ c ∈ a, isBlank c = true)
    (hb : ∀ c ∈ b, isBlank c = true) : trim (a ++ (cs ++ b)) = trim cs := by
  have hback : ∀ x : List Char, (x ++ b).reverse.dropWhile isBlank = x.reverse.dropWhile isBlank := by
    intro x
    rw [List.reverse_append,
      List.dropWhile_append_of_pos fun c hc => hb c (List.mem_reverse.mp hc)]
  rw [trim, trim, List.dropWhile_append_of_pos ha, List.dropWhile_append]
  split_ifs with hblank
  · rw [List.isEmpty_iff.mp hblank, List.dropWhile_eq_nil_iff.mpr hb]
  · rw [hback]

end LiveMarkup
