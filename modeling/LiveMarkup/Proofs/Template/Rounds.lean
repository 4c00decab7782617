import LiveMarkup.Proofs.Template.Completion

/-!
# Rounds of a compilation

A compilation passes over a character, perhaps with a warning, or it takes a directive out: it
compiles the body, records what the body has become, and goes on after the closer (`Round`).  What
holds of every round holds of the whole compilation (`compileFrom_round`); warnings are never taken
back (`warnings_of_compileFrom`).
-/

namespace LiveMarkup

open Text

variable {cs out body body' header test array item rest r : List Char} {c : Char} {fuel pos : Nat}
  {f f₁ f' : Findings}

/-! ## Directives that are opened -/

theorem kind_of_condition {kind : DirectiveKind}
    (h : openDirective kind pos cs = .ok (.ok (.condition test body, rest))) : kind = .condition := by
  cases kind
  · rfl
  · unfold openDirective at h
    split at h
    · cases h
    · simp only at h
      split at h
      · cases h
      · split at h <;> cases h

theorem kind_of_loop {kind : DirectiveKind}
    (h : openDirective kind pos cs = .ok (.ok (.loop array item body, rest))) : kind = .loop := by
  cases kind
  · unfold openDirective at h
    split at h
    · cases h
    · simp only at h
      split at h
      · cases h
      · split at h <;> cases h
  · rfl

theorem header_of_condition
    (h : openDirective .condition pos cs = .ok (.ok (.condition test body, rest))) :
    ∃ header after, conditionHeader? cs = some (test, header, after) := by
  rw [openDirective] at h
  split at h
  · cases h
  · simp only at h
    split at h
    · cases h
    · rename_i test' header after hh
      split at h
      · cases h
        exact ⟨header, after, hh⟩
      · cases h

theorem header_of_loop (h : openDirective .loop pos cs = .ok (.ok (.loop array item body, rest))) :
    ∃ header, '\x7d' ∉ header ∧ loopHeader? header = some (array, item) := by
  rw [openDirective] at h
  split at h
  · cases h
  · rename_i inside rest' hs
    simp only at h
    split at h
    · cases h
    · split at h
      · cases h
      · rename_i array' item' hh
        cases h
        exact ⟨_, fun hmem => by simpa using List.all_eq_true.mp List.all_takeWhile _ hmem, hh⟩

/-! ## Rounds -/

/-- What a round of a compilation does at a character: it passes over it, it takes a condition out
whose header it has read, or a loop. -/
inductive Round (fuel : Nat) (f f' : Findings) : Char → List Char → List Char → Prop
  | pass {c : Char} {cs out : List Char} {ws : List Warning} {pos : Nat} :
    (∀ w ∈ ws, ∃ kind pos r, openDirective kind pos r = .ok (.error w)) →
    compileFrom fuel pos cs { f with warnings := f.warnings ++ ws } = .ok (out, f') →
    Round fuel f f' c cs (c :: out)
  | condition {c : Char} {cs r test header after body body' rest out : List Char} {f₁ : Findings}
    {pos : Nat} :
    Opens (c :: cs) body rest → conditionHeader? r = some (test, header, after) →
    compileFrom fuel 0 body (f.nextName .condition).2 = .ok (body', f₁) →
    compileFrom fuel pos rest { f₁ with
      conditions := f₁.conditions ++
        [⟨(f.nextName .condition).1, (blocks (f.nextName .condition).1 test body').1⟩]
      warnings := f₁.warnings ++ (blocks (f.nextName .condition).1 test body').2 } = .ok (out, f') →
    Round fuel f f' c cs ((Marker.mk .condition (f.nextName .condition).1).markup ++ out)
  | loop {c : Char} {cs array item header body body' rest out : List Char} {f₁ : Findings} {pos : Nat} :
    Opens (c :: cs) body rest → '\x7d' ∉ header → loopHeader? header = some (array, item) →
    compileFrom fuel 0 body (f.nextName .loop).2 = .ok (body', f₁) →
    compileFrom fuel pos rest { f₁ with
      loops := f₁.loops ++
        [⟨(f.nextName .loop).1, String.ofList array, String.ofList item, blockContent body'⟩] } =
          .ok (out, f') →
    Round fuel f f' c cs ((Marker.mk .loop (f.nextName .loop).1).markup ++ out)

theorem compileFrom_round (h : compileFrom (fuel + 1) pos (c :: cs) f = .ok (out, f')) :
    Round fuel f f' c cs out := by
  rw [compileFrom] at h
  rcases hd : directive? (c :: cs) with _ | ⟨kind, r⟩ <;> rw [hd] at h <;> simp only at h
  · obtain ⟨⟨out₁, f''⟩, h1, h2⟩ := bind_eq_ok_iff.mp h
    cases h2
    have hrest : compileFrom fuel (pos + c.utf8Size) cs { f with warnings := f.warnings ++ [] } =
        .ok (out₁, f'') := by rwa [List.append_nil]
    exact .pass (List.forall_mem_nil _) hrest
  · obtain ⟨opened, ho, h⟩ := bind_eq_ok_iff.mp h
    rcases opened with w | ⟨opened, rest⟩ <;> simp only at h
    · obtain ⟨⟨out₁, f''⟩, h1, h2⟩ := bind_eq_ok_iff.mp h
      cases h2
      exact .pass (List.forall_mem_singleton.mpr ⟨kind, pos, r, ho⟩) h1
    · have hopens := (opens_iff pos (directive?_eq_some_iff.mp hd)).mpr ⟨opened, ho, rfl⟩
      rcases opened with ⟨test, body⟩ | ⟨array, item, body⟩ <;> simp only at h
      all_goals
        obtain ⟨⟨body', f₁⟩, h1, h⟩ := bind_eq_ok_iff.mp h
        obtain ⟨f₂, h2, h⟩ := bind_eq_ok_iff.mp h
        obtain ⟨⟨out₂, f''⟩, h3, h4⟩ := bind_eq_ok_iff.mp h
        cases h2
        cases h4
      · obtain rfl := kind_of_condition ho
        obtain ⟨header, after, hh⟩ := header_of_condition ho
        exact .condition hopens hh h1 h3
      · obtain rfl := kind_of_loop ho
        obtain ⟨header, hfree, hh⟩ := header_of_loop ho
        exact .loop hopens hfree hh h1 h3

/-! ## What is found stays -/

theorem loops_of_compileFrom : ∀ {fuel pos : Nat} {cs out : List Char} {f f' : Findings},
    compileFrom fuel pos cs f = .ok (out, f') → f.loops <+: f'.loops
  | 0, _, _, _, _, _, h => by
    cases h
    exact List.prefix_rfl
  | _ + 1, _, [], _, _, _, h => by
    cases h
    exact List.prefix_rfl
  | fuel + 1, pos, c :: cs, out, f, f', h => by
    cases compileFrom_round h with
    | pass _ h1 => exact (loops_of_compileFrom h1 :)
    | condition _ _ h1 h2 => exact (loops_of_compileFrom h1).trans (loops_of_compileFrom h2 :)
    | loop _ _ _ h1 h2 =>
      exact (loops_of_compileFrom h1).trans ((List.prefix_append _ _).trans (loops_of_compileFrom h2))

theorem warnings_of_compileFrom : ∀ {fuel pos : Nat} {cs out : List Char} {f f' : Findings},
    compileFrom fuel pos cs f = .ok (out, f') → f.warnings <+: f'.warnings
  | 0, _, _, _, _, _, h => by
    cases h
    exact List.prefix_rfl
  | _ + 1, _, [], _, _, _, h => by
    cases h
    exact List.prefix_rfl
  | fuel + 1, pos, c :: cs, out, f, f', h => by
    cases compileFrom_round h with
    | pass _ h1 => exact (List.prefix_append _ _).trans (warnings_of_compileFrom h1)
    | condition _ _ h1 h2 =>
      exact (warnings_of_compileFrom h1).trans ((List.prefix_append _ _).trans (warnings_of_compileFrom h2))
    | loop _ _ _ h1 h2 => exact (warnings_of_compileFrom h1).trans (warnings_of_compileFrom h2 :)

end LiveMarkup
