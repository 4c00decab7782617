import LiveMarkup.Proofs.Expr.Respelling
import LiveMarkup.Proofs.Text.Bytes

/-!
# Tokens and where they stand

The tokenizer goes round by round, and each round takes blanks and a token behind them.  So the
tokens that it returns are those of a text with blanks between its tokens, each at the byte where it
is spelled (`lexesAt_iff_tokenize`).  They lie apart from each other in their order, and leave only
blanks.
-/

namespace LiveMarkup

open Text

variable {cs rest blanks a b : List Char} {c : Char} {t : Token} {l : Lexeme} {ls : List Lexeme}
  {pos fuel : Nat}

/-- The tokens of a text that starts at a given byte, and where they stand. -/
inductive LexesAt : Nat → List Char → List Lexeme → Prop where
  | nil {pos : Nat} {blanks : List Char} : (∀ c ∈ blanks, isTokenBlank c = true) →
    LexesAt pos blanks []
  | cons {pos : Nat} {blanks rest : List Char} {l : Lexeme} {ls : List Lexeme} :
    (∀ c ∈ blanks, isTokenBlank c = true) →
    scanToken (l.token.spelling.toList ++ rest) = some (l.token, rest) →
    l.start = pos + byteLength blanks → l.stop = l.start + byteLength l.token.spelling.toList →
    LexesAt l.stop rest ls → LexesAt pos (blanks ++ (l.token.spelling.toList ++ rest)) (l :: ls)

/-! ## One round -/

theorem takeWhile_append_cons {p : Char → Bool} {a : List Char} (ha : ∀ c ∈ a, p c = true)
    (hend : ∀ c ∈ cs.head?, p c = false) :
    (a ++ cs).takeWhile p = a ∧ (a ++ cs).dropWhile p = cs := by
  rw [List.takeWhile_append_of_pos ha, List.dropWhile_append_of_pos ha]
  rcases cs with _ | ⟨c, cs⟩
  · simp
  · have hc := hend c rfl
    simp [hc]

theorem Token.spelling_ofWord (w : List Char) : (Token.ofWord w).spelling.toList = w := by
  simp only [Token.ofWord]
  split
  · rename_i r hr
    have hr := List.find?_some hr
    rw [Token.spelling, of_decide_eq_true hr, String.toList_ofList]
  · exact String.toList_ofList

theorem eq_of_scanToken (h : scanToken cs = some (t, rest)) : cs = t.spelling.toList ++ rest := by
  cases scanned_of_scanToken h with
  | word => rw [Token.spelling_ofWord]
  | string | number => rw [Token.spelling, String.toList_ofList]
  | symbol => rfl

theorem length_lt_of_scanToken {cs rest : List Char} {t : Token}
    (h : scanToken cs = some (t, rest)) : rest.length < cs.length :=
  (scanned_of_scanToken h).length_lt

theorem lexFrom_blanks (hb : ∀ c ∈ blanks, isTokenBlank c = true) :
    lexFrom (fuel + 1) pos blanks = .ok [] := by
  rw [lexFrom, List.dropWhile_eq_nil_iff.mpr hb]

theorem lexFrom_stop (hb : ∀ c ∈ blanks, isTokenBlank c = true) (hc : isTokenBlank c = false)
    (hs : scanToken (c :: cs) = none) : lexFrom (fuel + 1) pos (blanks ++ c :: cs) =
      .error (.unexpectedCharacter (pos + byteLength blanks)) := by
  have hend : ∀ d ∈ (c :: cs).head?, isTokenBlank d = false := by simpa using hc
  obtain ⟨htake, hdrop⟩ := takeWhile_append_cons hb hend
  simp only [lexFrom, htake, hdrop, hs]

theorem lexFrom_token (hb : ∀ c ∈ blanks, isTokenBlank c = true)
    (hs : scanToken cs = some (t, rest)) :
    lexFrom (fuel + 1) pos (blanks ++ cs) = (do
      let start := pos + byteLength blanks
      let stop := start + byteLength t.spelling.toList
      return ⟨t, start, stop⟩ :: (← lexFrom fuel stop rest)) := by
  rcases cs with _ | ⟨c, cs⟩
  · cases hs
  have hend : ∀ d ∈ (c :: cs).head?, isTokenBlank d = false := by
    simpa using not_isTokenBlank_of_scanToken hs
  obtain ⟨htake, hdrop⟩ := takeWhile_append_cons hb hend
  simp only [lexFrom, htake, hdrop, hs]

/-- A text has blanks at its start, and then a token, or something else, or nothing. -/
theorem blanks_cases (cs : List Char) : ∃ blanks, (∀ c ∈ blanks, isTokenBlank c = true) ∧
    (cs = blanks ∨ (∃ t rest, cs = blanks ++ (t.spelling.toList ++ rest) ∧
      scanToken (t.spelling.toList ++ rest) = some (t, rest)) ∨
      ∃ c rest, cs = blanks ++ c :: rest ∧ isTokenBlank c = false ∧
        scanToken (c :: rest) = none) := by
  have hcut := List.takeWhile_append_dropWhile (p := isTokenBlank) (l := cs)
  refine ⟨cs.takeWhile isTokenBlank, List.all_eq_true.mp List.all_takeWhile, ?_⟩
  rcases hd : cs.dropWhile isTokenBlank with _ | ⟨c, r⟩
  · rw [hd, List.append_nil] at hcut
    exact .inl hcut.symm
  · rw [hd] at hcut
    have hc : isTokenBlank c = false := by
      have := List.head?_dropWhile_not isTokenBlank cs
      rw [hd] at this
      exact this
    rcases hs : scanToken (c :: r) with _ | ⟨t, rest⟩
    · exact .inr (.inr ⟨c, r, hcut.symm, hc, hs⟩)
    · have heq := eq_of_scanToken hs
      rw [heq] at hs hcut
      exact .inr (.inl ⟨t, rest, hcut.symm, hs⟩)

/-! ## All rounds -/

theorem length_spelling_pos (hs : scanToken cs = some (t, rest)) :
    0 < t.spelling.toList.length := by
  have hlt := length_lt_of_scanToken hs
  rw [eq_of_scanToken hs, List.length_append] at hlt
  omega

theorem lexesAt_of_lexFrom : ∀ {fuel pos : Nat} {cs : List Char} {ls : List Lexeme},
    cs.length < fuel → lexFrom fuel pos cs = .ok ls → LexesAt pos cs ls
  | fuel + 1, pos, cs, ls, hlen, h => by
    obtain ⟨blanks, hb, rfl | ⟨t, rest, rfl, hs⟩ | ⟨c, rest, rfl, hc, hs⟩⟩ := blanks_cases cs
    · rw [lexFrom_blanks hb] at h
      cases h
      exact .nil hb
    · rw [lexFrom_token hb hs] at h
      obtain ⟨ls, hls, h⟩ := bind_eq_ok_iff.mp h
      cases h
      have hpos := length_spelling_pos hs
      rw [List.length_append, List.length_append] at hlen
      exact .cons (l := ⟨t, _, _⟩) hb hs rfl rfl (lexesAt_of_lexFrom (by omega) hls)
    · rw [lexFrom_stop hb hc hs] at h
      cases h

theorem LexesAt.lexFrom (h : LexesAt pos cs ls) :
    ∀ {fuel : Nat}, cs.length < fuel → lexFrom fuel pos cs = .ok ls := by
  induction h with
  | nil hb =>
    rintro (_ | fuel) hlen
    · cases hlen
    · exact lexFrom_blanks hb
  | @cons pos blanks rest l ls hb hs hstart hstop _ ih =>
    rintro (_ | fuel) hlen
    · cases hlen
    · have hpos := length_spelling_pos hs
      rw [List.length_append, List.length_append] at hlen
      rw [lexFrom_token hb hs, ← hstart]
      dsimp only
      rw [← hstop, ih (by omega)]
      rfl

theorem lexesAt_iff_tokenize : LexesAt 0 cs ls ↔ tokenize cs = .ok ls :=
  ⟨fun h => h.lexFrom (Nat.lt_succ_self _), lexesAt_of_lexFrom (Nat.lt_succ_self _)⟩

/-! ## Where the tokens stand -/

theorem append_eq_append_cons {x y : List Char} (h : x ++ y = a ++ c :: b) :
    (∃ d, x = a ++ c :: d) ∨ ∃ a', a = x ++ a' ∧ y = a' ++ c :: b := by
  rcases List.append_eq_append_iff.mp h with ⟨a', rfl, rfl⟩ | ⟨d, rfl, hd⟩
  · exact .inr ⟨a', rfl, rfl⟩
  · rcases d with _ | ⟨d, ds⟩
    · exact .inr ⟨[], by simp, hd.symm⟩
    · obtain ⟨rfl, -⟩ := List.cons.inj hd
      exact .inl ⟨ds, rfl⟩

namespace LexesAt

theorem bounds (h : LexesAt pos cs ls) :
    ∀ l ∈ ls, pos ≤ l.start ∧ l.start < l.stop ∧ l.stop ≤ pos + byteLength cs := by
  induction h with
  | nil => simp
  | @cons pos blanks rest l ls hb hs hstart hstop _ ih =>
    have hpos := byteLength_pos (List.ne_nil_of_length_pos (length_spelling_pos hs))
    rw [byteLength_append, byteLength_append]
    refine List.forall_mem_cons.mpr ⟨⟨by omega, by omega, by omega⟩, fun l' hl' => ?_⟩
    have := ih l' hl'
    omega

theorem ordered (h : LexesAt pos cs ls) : ls.Pairwise fun l l' => l.stop ≤ l'.start := by
  induction h with
  | nil => exact .nil
  | cons _ _ _ _ hrest ih => exact .cons (fun l' hl' => (hrest.bounds l' hl').1) ih

theorem slice (h : LexesAt pos cs ls) : ∀ l ∈ ls, ∃ a b,
    cs = a ++ (l.token.spelling.toList ++ b) ∧ pos + byteLength a = l.start ∧
    l.start + byteLength l.token.spelling.toList = l.stop ∧
    scanToken (l.token.spelling.toList ++ b) = some (l.token, b) := by
  induction h with
  | nil => simp
  | @cons pos blanks rest l ls hb hs hstart hstop _ ih =>
    refine List.forall_mem_cons.mpr ⟨⟨blanks, rest, rfl, hstart.symm, hstop.symm, hs⟩, ?_⟩
    intro l' hl'
    obtain ⟨a, b, rfl, hpos, hl⟩ := ih l' hl'
    refine ⟨blanks ++ (l.token.spelling.toList ++ a), b, by simp, ?_, hl⟩
    rw [byteLength_append, byteLength_append, ← hpos, hstop, hstart]
    omega

theorem covered (h : LexesAt pos cs ls) : ∀ {a : List Char} {c : Char} {b : List Char},
    cs = a ++ c :: b → isTokenBlank c = true ∨ ∃ l ∈ ls, l.start ≤ pos + byteLength a ∧
      pos + byteLength a + c.utf8Size ≤ l.stop := by
  induction h with
  | nil hb =>
    rintro a c b rfl
    exact .inl (hb c (by simp))
  | @cons pos blanks rest l ls hb hs hstart hstop _ ih =>
    intro a c b h
    rcases append_eq_append_cons h with ⟨d, hd⟩ | ⟨x, rfl, hx⟩
    · exact .inl (hb c (by simp [hd]))
    · rcases append_eq_append_cons hx with ⟨d, hd⟩ | ⟨y, rfl, hy⟩
      · refine .inr ⟨l, List.mem_cons_self, ?_, ?_⟩ <;>
          simp only [hstop, hstart, hd, byteLength_append, byteLength] <;> omega
      · rcases ih hy with hc | ⟨l', hl', hle⟩
        · exact .inl hc
        · refine .inr ⟨l', List.mem_cons_of_mem l hl', ?_⟩
          rw [byteLength_append, byteLength_append]
          omega

end LexesAt

end LiveMarkup
