import LiveMarkup.Proofs.Expr.Lexing
import LiveMarkup.Proofs.Text.Trim

/-!
# Tokens of a normalized text

Normalizing a text leaves its tokens as they are, but for strings with a line break in them and for
an opening brace in front with a closing one behind: these two are taken off, whether or not they
belong to each other (`Lexes.normalize`).
-/

namespace LiveMarkup

open Text

/-- The tokens of a text, regardless of where they stand. -/
inductive Lexes : List Char → List Token → Prop where
  | nil {blanks : List Char} : (∀ c ∈ blanks, isTokenBlank c = true) → Lexes blanks []
  | cons {blanks cs rest : List Char} {t : Token} {ts : List Token} :
    (∀ c ∈ blanks, isTokenBlank c = true) → scanToken cs = some (t, rest) → Lexes rest ts →
      Lexes (blanks ++ cs) (t :: ts)

/-! ## The tokens that are read -/

theorem LexesAt.lexes {pos : Nat} {cs : List Char} {ls : List Lexeme} (h : LexesAt pos cs ls) :
    Lexes cs (ls.map Lexeme.token) := by
  induction h with
  | nil hb => exact .nil hb
  | cons hb hs _ _ _ ih => exact .cons hb hs ih

theorem Lexes.exists_lexesAt {cs : List Char} {ts : List Token} (h : Lexes cs ts) (pos : Nat) :
    ∃ ls, LexesAt pos cs ls ∧ ls.map Lexeme.token = ts := by
  induction h generalizing pos with
  | nil hb => exact ⟨[], .nil hb, rfl⟩
  | @cons blanks cs rest t ts hb hs _ ih =>
    obtain rfl := eq_of_scanToken hs
    obtain ⟨ls, hls, rfl⟩ := ih (pos + byteLength blanks + byteLength t.spelling.toList)
    exact ⟨⟨t, _, _⟩ :: ls, .cons (l := ⟨t, _, _⟩) hb hs rfl rfl hls, rfl⟩

theorem lexes_iff_tokenize {cs : List Char} {ts : List Token} :
    Lexes cs ts ↔ ∃ ls, tokenize cs = .ok ls ∧ ls.map Lexeme.token = ts := by
  simp only [← lexesAt_iff_tokenize]
  constructor
  · exact fun h => h.exists_lexesAt 0
  · rintro ⟨ls, hls, rfl⟩
    exact hls.lexes

namespace Lexes

variable {cs rest : List Char} {c : Char} {t : Token} {ts us : List Token}

theorem eq_nil (h : Lexes [] ts) : ts = [] := by
  generalize hx : [] = x at h
  cases h with
  | nil => rfl
  | cons _ hs =>
    rw [(List.append_eq_nil_iff.mp hx.symm).2] at hs
    cases hs

/-! ## What stands in front -/

theorem of_cons (h : Lexes (c :: cs) ts) :
    (isTokenBlank c = true ∧ Lexes cs ts) ∨
      ∃ t us rest, ts = t :: us ∧ scanToken (c :: cs) = some (t, rest) ∧ Lexes rest us := by
  generalize hx : c :: cs = x at h
  cases h with
  | nil hb =>
    subst hx
    rw [List.forall_mem_cons] at hb
    exact .inl ⟨hb.1, .nil hb.2⟩
  | @cons blanks y rest t us hb hs hrest =>
    rcases blanks with _ | ⟨b, blanks⟩
    · rw [List.nil_append] at hx
      exact .inr ⟨t, us, rest, rfl, hx ▸ hs, hrest⟩
    · rw [List.cons_append] at hx
      obtain ⟨rfl, rfl⟩ := List.cons.inj hx
      rw [List.forall_mem_cons] at hb
      exact .inl ⟨hb.1, .cons hb.2 hs hrest⟩

theorem of_blank_cons (hc : isBlank c = true) (h : Lexes (c :: cs) ts) : Lexes cs ts := by
  rcases h.of_cons with ⟨-, h⟩ | ⟨t, us, rest, -, hs, -⟩
  · exact h
  · rw [scanToken_blank hc] at hs
    cases hs

theorem scanToken_openBrace (cs : List Char) :
    scanToken ('\x7b' :: cs) = some (.symbol .openBrace, cs) := by
  rfl

theorem of_openBrace_cons (h : Lexes ('\x7b' :: cs) ts) :
    ∃ us, ts = .symbol .openBrace :: us ∧ Lexes cs us := by
  rcases h.of_cons with ⟨hc, -⟩ | ⟨t, us, rest, rfl, hs, hrest⟩
  · cases hc
  · rw [scanToken_openBrace] at hs
    cases hs
    exact ⟨us, rfl, hrest⟩

/-! ## What stands behind -/

theorem scanToken_closeBrace : scanToken ['\x7d'] = some (.symbol .closeBrace, []) := by
  rfl

/-- A blank behind a text belongs to no token, and a closing brace is one by itself. -/
theorem of_concat (hc : isLoose c = true) (h : Lexes (cs ++ [c]) ts) :
    (isTokenBlank c = true ∧ Lexes cs ts) ∨
      (c = '\x7d' ∧ ∃ us, ts = us ++ [.symbol .closeBrace] ∧ Lexes cs us) := by
  generalize hx : cs ++ [c] = x at h
  induction h generalizing cs with
  | nil hb =>
    subst hx
    rw [List.forall_mem_append] at hb
    exact .inl ⟨hb.2 c (by simp), .nil hb.1⟩
  | @cons blanks y rest t ts hb hs hrest ih =>
    obtain ⟨z, rfl, rfl⟩ : ∃ z, y = z ++ [c] ∧ cs = blanks ++ z := by
      rcases List.eq_nil_or_concat y with rfl | ⟨z, e, rfl⟩
      · cases hs
      · rw [List.concat_eq_append, ← List.append_assoc] at hx
        obtain ⟨rfl, he⟩ := List.append_inj' hx rfl
        obtain rfl := List.singleton_inj.mp he
        exact ⟨z, List.concat_eq_append, rfl⟩
    rcases z with _ | ⟨d, z⟩
    · rw [List.append_nil]
      have hblank : isBlank c = false := not_isBlank_of_scanToken hs
      rw [isLoose, hblank, Bool.false_or, decide_eq_true_eq] at hc
      subst hc
      rw [List.nil_append, scanToken_closeBrace] at hs
      cases hs
      exact .inr ⟨rfl, [], by rw [hrest.eq_nil]; rfl, .nil hb⟩
    · obtain ⟨r, rfl, hz⟩ := scanToken_of_concat hc hs
      rcases ih rfl with ⟨hblank, hr⟩ | ⟨rfl, us, rfl, hr⟩
      · exact .inl ⟨hblank, .cons hb hz hr⟩
      · exact .inr ⟨rfl, t :: us, rfl, .cons hb hz hr⟩

theorem of_concat_blank (hc : isBlank c = true) (h : Lexes (cs ++ [c]) ts) : Lexes cs ts := by
  rcases h.of_concat (by rw [isLoose, hc, Bool.true_or]) with ⟨-, h⟩ | ⟨rfl, -⟩
  · exact h
  · cases hc

theorem of_concat_closeBrace (h : Lexes (cs ++ ['\x7d']) ts) :
    ∃ us, ts = us ++ [.symbol .closeBrace] ∧ Lexes cs us := by
  rcases h.of_concat (by decide) with ⟨hc, -⟩ | ⟨-, us, hus, hcs⟩
  · cases hc
  · exact ⟨us, hus, hcs⟩

theorem getLast?_of_nil (h : Lexes cs []) : ∀ c ∈ cs.getLast?, isTokenBlank c = true := by
  cases h with
  | nil hb => exact fun c hc => hb c (List.mem_of_mem_getLast? hc)

/-- A text whose tokens end with a closing brace ends with one, but for blanks. -/
theorem getLast?_of_closeBrace (h : Lexes cs (us ++ [.symbol .closeBrace])) :
    ∀ c ∈ cs.getLast?, isTokenBlank c = true ∨ c = '\x7d' := by
  generalize hts : us ++ [.symbol .closeBrace] = ts at h
  induction h generalizing us with
  | nil => simp at hts
  | @cons blanks y rest t ts hb hs hrest ih =>
    intro c hc
    have hy : y ≠ [] := by
      rintro rfl
      cases hs
    rw [List.getLast?_append_of_ne_nil _ hy] at hc
    rcases us with _ | ⟨u, us⟩
    · obtain ⟨rfl, rfl⟩ := List.cons.inj hts
      rw [eq_of_scanToken hs, List.getLast?_append] at hc
      rcases hlast : rest.getLast? with _ | d <;> rw [hlast] at hc
      · exact .inr (Option.some.inj hc).symm
      · obtain rfl := Option.some.inj hc
        exact .inl (hrest.getLast?_of_nil _ hlast)
    · obtain ⟨rfl, hus⟩ := List.cons.inj hts
      have hne : rest ≠ [] := by
        rintro rfl
        rw [hrest.eq_nil] at hus
        simp at hus
      rw [eq_of_scanToken hs, List.getLast?_append_of_ne_nil _ hne] at hc
      exact ih hus c hc

/-! ## Trimming and unwrapping -/

theorem trim (h : Lexes cs ts) : Lexes (Text.trim cs) ts := by
  obtain ⟨a, b, heq, ha, hb⟩ := trim_eq cs
  rw [heq] at h
  generalize Text.trim cs = x at h ⊢
  have hfront : Lexes (x ++ b) ts := by
    clear heq
    induction a with
    | nil => exact h
    | cons c a ih =>
      rw [List.forall_mem_cons] at ha
      exact ih ha.2 (h.of_blank_cons ha.1)
  clear h heq
  induction b using List.reverseRecOn with
  | nil => rwa [List.append_nil] at hfront
  | append_singleton b c ih =>
    rw [← List.append_assoc] at hfront
    rw [List.forall_mem_append] at hb
    exact ih hb.1 (hfront.of_concat_blank (hb.2 c (by simp)))

/-- The tokens of a text in braces are those between two braces. -/
theorem unwrapBraces (h : Lexes cs ts) :
    LiveMarkup.unwrapBraces cs = cs ∨
      ∃ us, ts = .symbol .openBrace :: us ++ [.symbol .closeBrace] ∧
        Lexes (LiveMarkup.unwrapBraces cs) us := by
  unfold LiveMarkup.unwrapBraces
  split
  · rename_i inner
    split_ifs with hlast
    · right
      obtain ⟨us, rfl, hinner⟩ := h.of_openBrace_cons
      rw [← List.dropLast_append_getLast? _ hlast] at hinner
      obtain ⟨us, rfl, hinside⟩ := hinner.of_concat_closeBrace
      exact ⟨us, rfl, hinside⟩
    · exact .inl rfl
  · exact .inl rfl

/-- A text without blanks at its ends is unwrapped if its tokens start and end with braces. -/
theorem unwrapBraces_of_braces (htrim : Text.trim cs = cs)
    (h : Lexes cs (.symbol .openBrace :: us ++ [.symbol .closeBrace])) :
    Lexes (LiveMarkup.unwrapBraces cs) us := by
  obtain ⟨hfirst, hlast⟩ := ends_of_trim htrim
  obtain ⟨c, inner, rfl⟩ : ∃ c inner, cs = c :: inner := by
    refine List.exists_cons_of_ne_nil ?_
    rintro rfl
    cases h.eq_nil
  obtain rfl : c = '\x7b' := by
    rcases h.of_cons with ⟨hc, -⟩ | ⟨t, us', rest, hts, hs, -⟩
    · have := not_isBlank_of_dropWhile hfirst
      rw [isBlank_of_isTokenBlank hc] at this
      cases this
    · obtain ⟨rfl, -⟩ := List.cons.inj hts
      exact (List.cons.inj (eq_of_scanToken hs)).1
  obtain ⟨us', hus, hinner⟩ := h.of_openBrace_cons
  obtain rfl := (List.cons.inj hus).2
  obtain ⟨inside, rfl⟩ : ∃ inside, inner = inside ++ ['\x7d'] := by
    rcases List.eq_nil_or_concat inner with rfl | ⟨inside, c, rfl⟩
    · have := hinner.eq_nil
      simp at this
    · rw [List.concat_eq_append] at hinner hlast ⊢
      rcases hinner.getLast?_of_closeBrace c (by simp) with hc | rfl
      · rw [← List.cons_append, List.reverse_append, List.reverse_singleton,
          List.singleton_append] at hlast
        have := not_isBlank_of_dropWhile hlast
        rw [isBlank_of_isTokenBlank hc] at this
        cases this
      · exact ⟨inside, rfl⟩
  obtain ⟨us', hus', hinside⟩ := hinner.of_concat_closeBrace
  rw [List.append_cancel_right hus', LiveMarkup.unwrapBraces]
  simpa using hinside

/-! ## One line -/

theorem respells_lineBlank : Respells lineBlank [] := by
  refine ⟨fun c hc => ?_, fun c hc => ?_, fun c hc => nomatch hc⟩
  · unfold lineBlank
    rw [if_neg]
    intro h
    simp only [Bool.or_eq_true, decide_eq_true_eq] at h
    rcases h with rfl | rfl <;> cases hc
  · unfold lineBlank
    split_ifs
    · rfl
    · exact hc

theorem map_lineBlank (h : Lexes cs ts)
    (hlines : ∀ spelling, .string spelling ∈ ts →
      spelling.toList.map lineBlank = spelling.toList) :
    Lexes (cs.map lineBlank) ts := by
  induction h with
  | nil hb =>
    refine .nil fun c hc => ?_
    obtain ⟨d, hd, rfl⟩ := List.mem_map.mp hc
    exact respells_lineBlank.blank d (hb d hd)
  | @cons blanks y rest t ts hb hs hrest ih =>
    have hscan := respells_lineBlank.scanToken_respell hs fun spelling ht =>
      hlines spelling (by rw [ht]; exact List.mem_cons_self)
    simp only [Respells.respell, List.append_nil] at hscan
    rw [List.map_append]
    refine .cons (fun c hc => ?_) hscan (ih fun spelling hmem =>
      hlines spelling (List.mem_cons_of_mem t hmem))
    obtain ⟨d, hd, rfl⟩ := List.mem_map.mp hc
    exact respells_lineBlank.blank d (hb d hd)

/-- Braces around a text are taken off, whether or not they belong to each other; for the rest the
tokens stay. -/
theorem normalize (h : Lexes cs ts)
    (hlines : ∀ spelling, .string spelling ∈ ts →
      spelling.toList.map lineBlank = spelling.toList) :
    (∃ us, ts = .symbol .openBrace :: us ++ [.symbol .closeBrace] ∧
        Lexes (LiveMarkup.normalize cs) us) ∨
      ((∀ us, ts ≠ .symbol .openBrace :: us ++ [.symbol .closeBrace]) ∧
        Lexes (LiveMarkup.normalize cs) ts) := by
  by_cases hbraces : ∃ us, ts = .symbol .openBrace :: us ++ [.symbol .closeBrace]
  · obtain ⟨us, rfl⟩ := hbraces
    have hinside := h.trim.unwrapBraces_of_braces (trim_trim cs)
    refine .inl ⟨us, rfl, (hinside.map_lineBlank fun spelling hmem => ?_).trim⟩
    exact hlines spelling (by simp [hmem])
  · rw [not_exists] at hbraces
    rcases h.trim.unwrapBraces with hkeep | ⟨us, hus, -⟩
    · have hlexes := (h.trim.map_lineBlank hlines).trim
      rw [← hkeep] at hlexes
      exact .inr ⟨hbraces, hlexes⟩
    · exact absurd hus (hbraces us)

end Lexes

end LiveMarkup
