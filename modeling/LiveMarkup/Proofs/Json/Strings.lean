import Mathlib
import LiveMarkup.Json.Printer

/-!
# Strings in JSON

A string is written with escapes, and read back in two stages.  The first finds the closing quote
and keeps the escapes (`readText_escaped`), the second takes them for the characters that they stand
for (`unescape?_escaped`).  Control characters without an escape of their own are written as units,
which are too small to be halves of a pair.
-/

namespace LiveMarkup.Json

open Text

/-- The spelling of a string between its quotes. -/
def escaped (s : String) : List Char :=
  s.toList.flatMap escapeChar

theorem quote_eq (s : String) : quote s = '"' :: escaped s ++ ['"'] :=
  rfl

/-- The escapes of two characters, with what they stand for. -/
def shortEscapes : List (Char × Char) :=
  [('"', '"'), ('\\', '\\'), ('\x08', 'b'), ('\x0c', 'f'), ('\n', 'n'), ('\r', 'r'), ('\t', 't')]

/-- The unit that stands for a control character. -/
def controlEscape (n : Nat) : List Char :=
  ['\\', 'u', '0', '0', hexDigit (n / 16), hexDigit (n % 16)]

/-- A character is written by an escape of two characters, as a unit, or as itself. -/
theorem escapeChar_cases (c : Char) :
    (∃ e, (c, e) ∈ shortEscapes ∧ escapeChar c = ['\\', e]) ∨
      (c.toNat < 0x20 ∧ escapeChar c = controlEscape c.toNat) ∨
      (0x20 ≤ c.toNat ∧ c ≠ '"' ∧ c ≠ '\\' ∧ escapeChar c = [c]) := by
  unfold escapeChar
  split
  case h_8 hquote hbackslash _ _ _ _ _ =>
    split_ifs with hc
    · exact .inr (.inl ⟨hc, rfl⟩)
    · exact .inr (.inr ⟨Nat.le_of_not_lt hc, hquote, hbackslash, rfl⟩)
  all_goals exact .inl ⟨_, by decide, rfl⟩

/-- The digits of the unit for a control character are digits, and give back its number. -/
theorem controlEscape_spec {n : Nat} (h : n < 0x20) :
    ['0', '0', hexDigit (n / 16), hexDigit (n % 16)].all isHex = true ∧
      hexNumber ['0', '0', hexDigit (n / 16), hexDigit (n % 16)] = n := by
  have table : ∀ n < 0x20, ['0', '0', hexDigit (n / 16), hexDigit (n % 16)].all isHex = true ∧
      hexNumber ['0', '0', hexDigit (n / 16), hexDigit (n % 16)] = n := by decide
  exact table n h

/-! ## Finding the end of a string -/

theorem readText_escapeChar (c : Char) (cs : List Char) :
    readText (escapeChar c ++ cs) =
      (readText cs).map fun (s, rest) => (escapeChar c ++ s, rest) := by
  rcases escapeChar_cases c with ⟨e, he, h⟩ | ⟨hc, h⟩ | ⟨hc, hquote, hbackslash, h⟩ <;> rw [h]
  · have hmem : e ∈ ['"', '\\', '/', 'b', 'f', 'n', 'r', 't'] := by
      have table : ∀ p ∈ shortEscapes, p.2 ∈ ['"', '\\', '/', 'b', 'f', 'n', 'r', 't'] := by decide
      exact table _ he
    have hu : e ≠ 'u' := by
      rintro rfl
      revert hmem
      decide
    rw [List.cons_append, List.cons_append, List.nil_append, readText]
    · rw [if_pos hmem]
      rfl
    · intro a b c d cs h
      exact absurd h hu
  · simp only [controlEscape, List.cons_append, List.nil_append, readText]
    rw [if_pos (controlEscape_spec hc).1]
  · rw [List.cons_append, List.nil_append, readText]
    · rw [if_neg (by simp [hbackslash, Nat.not_lt.mpr hc])]
      rfl
    · exact fun h => hquote h
    · intro a b c d cs h
      exact absurd h hbackslash
    · intro e cs h
      exact absurd h hbackslash

/-- A string is read up to its closing quote. -/
theorem readText_escaped (s : String) (rest : List Char) :
    readText (escaped s ++ '"' :: rest) = some (escaped s, rest) := by
  unfold escaped
  induction s.toList with
  | nil => rfl
  | cons c cs ih =>
    rw [List.flatMap_cons, List.append_assoc, readText_escapeChar, ih]
    rfl

/-! ## What a spelling stands for -/

theorem joinPieces_unit {n : Nat} (h : n < 0xD800) (ps : List Piece) :
    joinPieces (.unit n :: ps) = (joinPieces ps).map (Char.ofNat n :: ·) := by
  have hhigh : ¬ (0xD800 ≤ n) := Nat.not_le.mpr h
  have hlow : ¬ (0xDC00 ≤ n) := by omega
  rcases ps with _ | ⟨c | l, ps⟩ <;> simp [joinPieces, hhigh, hlow]

/-- An escape is one piece, which stands for the character that was escaped. -/
theorem pieces_escapeChar (c : Char) (cs : List Char) :
    ∃ p, pieces (escapeChar c ++ cs) = p :: pieces cs ∧
      ∀ ps, joinPieces (p :: ps) = (joinPieces ps).map (c :: ·) := by
  rcases escapeChar_cases c with ⟨e, he, h⟩ | ⟨hc, h⟩ | ⟨hc, hquote, hbackslash, h⟩ <;> rw [h]
  · refine ⟨.char c, ?_, fun ps => by rw [joinPieces]⟩
    simp only [shortEscapes, List.mem_cons, Prod.mk.injEq, List.not_mem_nil, or_false] at he
    rcases he with ⟨rfl, rfl⟩ | ⟨rfl, rfl⟩ | ⟨rfl, rfl⟩ | ⟨rfl, rfl⟩ | ⟨rfl, rfl⟩ | ⟨rfl, rfl⟩ |
      ⟨rfl, rfl⟩ <;> simp [pieces]
  · refine ⟨.unit c.toNat, ?_, fun ps => ?_⟩
    · simp only [controlEscape, List.cons_append, List.nil_append, pieces,
        (controlEscape_spec hc).2]
    · rw [joinPieces_unit (by omega), Char.ofNat_toNat]
  · refine ⟨.char c, ?_, fun ps => by rw [joinPieces]⟩
    rw [List.cons_append, List.nil_append, pieces]
    all_goals simp [hbackslash]

/-- The spelling of a string stands for it. -/
theorem unescape?_escaped (s : String) : unescape? (escaped s) = some s := by
  have h : ∀ cs : List Char, joinPieces (pieces (cs.flatMap escapeChar)) = some cs := by
    intro cs
    induction cs with
    | nil => rfl
    | cons c cs ih =>
      obtain ⟨p, hp, hjoin⟩ := pieces_escapeChar c (cs.flatMap escapeChar)
      rw [List.flatMap_cons, hp, hjoin, ih]
      rfl
  rw [unescape?, escaped, h, Option.map_some, String.ofList_toList]

end LiveMarkup.Json
