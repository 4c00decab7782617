import LiveMarkup.Proofs.Expr.LongestMatch

/-!
# The parts of a text

The tokens of a text and the blanks between them make up the text, and each token is the longest one
that the rules allow where it starts.  If there are no tokens, then the text up to some byte has
tokens of its own, and from this byte on no token can be read (`exists_of_lexFrom_error`).  Both are
stated together in `tokenize_partitions`.
-/

namespace LiveMarkup

open Text

variable {cs : List Char} {pos fuel : Nat}

/-- If some text is not read, then what stands before it has tokens of its own. -/
theorem exists_of_lexFrom_error {e : ExprError} (hlen : cs.length < fuel)
    (h : lexFrom fuel pos cs = .error e) : ∃ a c b ls, cs = a ++ c :: b ∧
      e = .unexpectedCharacter (pos + byteLength a) ∧ LexesAt pos a ls ∧
      isTokenBlank c = false ∧ scanToken (c :: b) = none := by
  induction fuel generalizing pos cs with
  | zero => cases hlen
  | succ fuel ih =>
    obtain ⟨blanks, hb, rfl | ⟨t, rest, rfl, hs⟩ | ⟨c, rest, rfl, hc, hs⟩⟩ := blanks_cases cs
    · rw [lexFrom_blanks hb] at h
      cases h
    · have hpos := length_spelling_pos hs
      rw [List.length_append, List.length_append] at hlen
      rw [lexFrom_token hb hs] at h
      generalize hstart : pos + byteLength blanks = start at h
      generalize hstop : start + byteLength t.spelling.toList = stop at h
      rcases hlater : lexFrom fuel stop rest with e' | ls
      · simp only [hstop, hlater] at h
        cases h
        obtain ⟨a, c, b, ls, rfl, rfl, hls, hc, hnone⟩ := ih (by omega) hlater
        have hread : scanToken (t.spelling.toList ++ a) = some (t, a) :=
          scanToken_of_append (by rwa [List.append_assoc])
        have htoken : LexesAt pos (blanks ++ (t.spelling.toList ++ a)) (⟨t, start, stop⟩ :: ls) :=
          .cons (l := ⟨t, start, stop⟩) hb hread hstart.symm hstop.symm hls
        refine ⟨_, c, b, _, ?_, ?_, htoken, hc, hnone⟩
        · rw [List.append_assoc, List.append_assoc]
        · rw [byteLength_append, byteLength_append, ← hstop, ← hstart, Nat.add_assoc, Nat.add_assoc]
      · simp only [hstop, hlater] at h
        cases h
    · rw [lexFrom_stop hb hc hs] at h
      cases h
      exact ⟨blanks, c, rest, [], rfl, rfl, .nil hb, hc, hs⟩

/-! ## Partitions -/

/-- The tokens of a text partition it. -/
structure Partitions (source : List Char) (ls : List Lexeme) : Prop where
  nonempty : ∀ l ∈ ls, l.start < l.stop
  ordered : ls.Pairwise fun l l' => l.stop ≤ l'.start
  /-- A character is a blank or lies inside one of the tokens. -/
  covered : ∀ a c b, source = a ++ c :: b → isTokenBlank c = true ∨
    ∃ l ∈ ls, l.start ≤ byteLength a ∧ byteLength (a ++ [c]) ≤ l.stop
  /-- A token is spelled as the text between its ends, and is the longest one from its start.  A
  reserved word is not the start of a longer name. -/
  slice : ∀ l ∈ ls, ∃ a b, source = a ++ (l.token.spelling.toList ++ b) ∧
    byteLength a = l.start ∧ byteLength (a ++ l.token.spelling.toList) = l.stop ∧
    l.token.IsLongest (l.token.spelling.toList ++ b) ∧
    ∀ r, l.token = .reserved r → ∀ c ∈ b.head?, isIdentRest c = false

/-- At a given byte of a text there is a character that is no blank, but no token, and the text up
to there has tokens of its own. -/
def FailsAt (source : List Char) (pos : Nat) : Prop :=
  ∃ a b, source = a ++ b ∧ byteLength a = pos ∧ (∃ ls, tokenize a = .ok ls) ∧
    (∃ c ∈ b.head?, isTokenBlank c = false) ∧ ∀ t : Token, ¬ t.Fits b

/-- The tokens of a text partition it; if it has none, this is because of one place where no token
can be read. -/
theorem tokenize_partitions (source : List Char) :
    match tokenize source with
    | .ok ls => Partitions source ls
    | .error e => ∃ pos, e = .unexpectedCharacter pos ∧ FailsAt source pos := by
  split
  · rename_i ls h
    have h := lexesAt_iff_tokenize.mpr h
    refine ⟨fun l hl => (h.bounds l hl).2.1, h.ordered, fun a c b hsource => ?_, fun l hl => ?_⟩
    · simpa [byteLength, Nat.add_assoc] using h.covered hsource
    · obtain ⟨a, b, hsource, hstart, hstop, hs⟩ := h.slice l hl
      rw [Nat.zero_add] at hstart
      refine ⟨a, b, hsource, hstart, ?_, (isLongest_of_scanToken hs).2, fun r hr => ?_⟩
      · rw [byteLength_append, hstart, hstop]
      · have hends := (readable_of_scanToken hs).2.2
        rw [hr] at hends
        exact hends rfl
  · rename_i e h
    obtain ⟨a, c, b, ls, rfl, rfl, ha, hc, hnone⟩ :=
      exists_of_lexFrom_error (Nat.lt_succ_self _) h
    rw [Nat.zero_add]
    exact ⟨_, rfl, a, c :: b, rfl, rfl, ⟨ls, lexesAt_iff_tokenize.mp ha⟩, ⟨c, rfl, hc⟩,
      scanToken_eq_none_iff.mp hnone⟩

/-- A reserved word and an exponent are taken as a whole or not at all. -/
example : tokenize "truer 1.5e+".toList = .ok [⟨.ident "truer", 0, 5⟩, ⟨.number "1.5", 6, 9⟩,
    ⟨.ident "e", 9, 10⟩, ⟨.symbol .plus, 10, 11⟩] := by cbv

end LiveMarkup
