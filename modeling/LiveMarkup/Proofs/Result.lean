/-!
# Sequences that may fail

A sequence of two steps succeeds exactly when both do.
-/

namespace LiveMarkup

variable {ε α β : Type} {x : Except ε α} {g : α → Except ε β}

@[simp] theorem ok_bind (a : α) (g : α → Except ε β) : (Except.ok a >>= g) = g a :=
  rfl

theorem bind_eq_ok_iff {r : β} : (x >>= g) = .ok r ↔ ∃ a, x = .ok a ∧ g a = .ok r := by
  rcases x with e | a
  · exact iff_of_false (by rintro ⟨⟩) (by rintro ⟨_, ⟨⟩, -⟩)
  · exact ⟨fun h => ⟨a, rfl, h⟩, by rintro ⟨_, ⟨⟩, h⟩; exact h⟩

/-- What is done after a step whose outcome does not matter to it. -/
theorem bind_succeeds_iff {P Q : Prop} (hx : (∃ a, x = .ok a) ↔ P)
    (hg : ∀ a, (∃ r, g a = .ok r) ↔ Q) : (∃ r, (x >>= g) = .ok r) ↔ P ∧ Q := by
  simp only [bind_eq_ok_iff, ← hx]
  constructor
  · rintro ⟨r, a, h, hr⟩
    exact ⟨⟨a, h⟩, (hg a).mp ⟨r, hr⟩⟩
  · rintro ⟨⟨a, h⟩, hq⟩
    obtain ⟨r, hr⟩ := (hg a).mpr hq
    exact ⟨r, a, h, hr⟩

end LiveMarkup
