import LiveMarkup.Expr.ItemNames
import LiveMarkup.Proofs.Expr.Normalized

/-!
# Texts read piece by piece

Where a name starts that is not attached to what stands before it, a token starts, and the text
before it and the text from there on can be read each by itself (`lexes_append_iff`).  The one thing
that reaches across such a place is a string that was opened before (`InString`).
-/

namespace LiveMarkup

open Text

theorem attaches_of_isIdentRest {c : Char} (h : isIdentRest c = true) : attaches (some c) = true := by
  simp only [isIdentRest, isNameRest, Bool.or_eq_true, decide_eq_true_eq] at h
  simp only [attaches, Bool.or_eq_true, decide_eq_true_eq]
  rcases h with (h | h) | h
  · exact .inr (isAlphanumeric_of_isAlphanum (toNat_lt_of_isAlphanum h) h)
  · exact .inl (.inr h)
  · exact .inl (.inl (.inr h))

theorem not_isDigit_of_isNameStart {c : Char} (h : isNameStart c = true) : c.isDigit = false := by
  simp only [isNameStart, Char.isAlpha, Char.isUpper, Char.isLower, Bool.or_eq_true,
    Bool.and_eq_true, decide_eq_true_eq, ge_iff_le, UInt32.le_iff_toNat_le] at h
  rw [Char.isDigit, Bool.and_eq_false_iff, decide_eq_false_iff_not, decide_eq_false_iff_not]
  simp only [ge_iff_le, UInt32.le_iff_toNat_le]
  have h0 : ('0' : Char).val.toNat = 48 := rfl
  have h9 : ('9' : Char).val.toNat = 57 := rfl
  have hA : ('A' : Char).val.toNat = 65 := rfl
  have ha : ('a' : Char).val.toNat = 97 := rfl
  rcases h with (h | h) | rfl
  · omega
  · omega
  · decide

theorem isWord_of_isNameStart {c : Char} (h : isNameStart c = true) : isWord c = true :=
  isWord_of_isNameRest (isNameRest_of_isNameStart h)

/-- A place where a name starts that stands alone. -/
structure Seam (b y : List Char) : Prop where
  alone : attaches b.getLast? = false
  start : ∀ c ∈ y.head?, isNameStart c = true

/-- A run of characters ends before a place where it would not go on. -/
theorem takeWhile_append_of_stop {p : Char → Bool} {b y : List Char}
    (h : (∃ c ∈ b, p c = false) ∨ ∀ c ∈ y.head?, p c = false) :
    (b ++ y).takeWhile p = b.takeWhile p ∧ (b ++ y).dropWhile p = b.dropWhile p ++ y := by
  induction b with
  | nil =>
    rcases y with _ | ⟨c, y⟩
    · exact ⟨rfl, rfl⟩
    · have hc : p c = false := by simpa using h
      simp [hc]
  | cons d b ih =>
    cases hd : p d with
    | false => simp [hd]
    | true =>
      obtain ⟨htake, hdrop⟩ := ih (by simpa [hd] using h)
      simp [hd, htake, hdrop]

namespace Seam

variable {b y : List Char} {c d : Char}

/-- The place is the same after a part in front is taken. -/
theorem suffix {a r : List Char} (h : Seam (a ++ r) y) : Seam r y := by
  refine ⟨?_, h.start⟩
  rcases r.eq_nil_or_concat with rfl | ⟨r, c, rfl⟩
  · rfl
  · have halone := h.alone
    rw [List.concat_eq_append] at halone ⊢
    rwa [← List.append_assoc, List.getLast?_concat, ← List.getLast?_concat (l := r)] at halone

theorem exists_not (h : Seam b y) (hb : b ≠ []) {p : Char → Bool}
    (hp : ∀ c, p c = true → attaches (some c) = true) : ∃ c ∈ b, p c = false := by
  obtain ⟨r, c, rfl⟩ := b.eq_nil_or_concat.resolve_left hb
  have halone := h.alone
  rw [List.concat_eq_append, List.getLast?_concat] at halone
  refine ⟨c, by simp, Bool.eq_false_iff.mpr fun hc => ?_⟩
  rw [hp c hc] at halone
  cases halone

variable (h : Seam b y)
include h

theorem head_ne (hd : isNameStart d = false) (rest : List Char) : y ≠ d :: rest := by
  rintro rfl
  rw [h.start d rfl] at hd
  cases hd

/-! ## Numbers -/

theorem takeWhile_isDigit (r : List Char) :
    (r ++ y).takeWhile Char.isDigit = r.takeWhile Char.isDigit ∧
      (r ++ y).dropWhile Char.isDigit = r.dropWhile Char.isDigit ++ y :=
  takeWhile_append_of_stop (.inr fun c hc => not_isDigit_of_isNameStart (h.start c hc))

theorem scanFraction_append (r : List Char) :
    scanFraction (r ++ y) = ((scanFraction r).1, (scanFraction r).2 ++ y) := by
  rcases r with _ | ⟨c, r⟩
  · rw [List.nil_append, scanFraction]
    · rfl
    · exact h.head_ne (by decide)
  · by_cases hc : c = '.'
    · subst hc
      simp only [List.cons_append, scanFraction, h.takeWhile_isDigit]
      split <;> rfl
    · rw [List.cons_append, scanFraction, scanFraction]
      · rfl
      · rintro rest heq
        exact hc (List.cons.inj heq).1
      · rintro rest heq
        exact hc (List.cons.inj heq).1

theorem scanSign_append (r : List Char) :
    scanSign (r ++ y) = ((scanSign r).1, (scanSign r).2 ++ y) := by
  have hnone : ∀ cs : List Char, (∀ rest, cs ≠ '+' :: rest) → (∀ rest, cs ≠ '-' :: rest) →
      scanSign cs = ([], cs) := by
    intro cs hplus hminus
    rw [scanSign]
    · exact fun rest => hplus rest
    · exact fun rest => hminus rest
  rcases r with _ | ⟨c, r⟩
  · exact hnone y (h.head_ne (by decide)) (h.head_ne (by decide))
  · by_cases hplus : c = '+'
    · subst hplus
      rfl
    · by_cases hminus : c = '-'
      · subst hminus
        rfl
      · rw [hnone (c :: r) (by simp [hplus]) (by simp [hminus]),
          hnone (c :: r ++ y) (by simp [hplus]) (by simp [hminus])]

theorem scanExponent_append (c : Char) (r : List Char) :
    scanExponent (c :: r ++ y) = ((scanExponent (c :: r)).1, (scanExponent (c :: r)).2 ++ y) := by
  simp only [List.cons_append, scanExponent, h.scanSign_append, h.takeWhile_isDigit]
  split
  · split <;> rfl
  · rfl

omit h in
theorem isDigit_or_dot_of_mem_scanFraction {cs : List Char} (hc : c ∈ (scanFraction cs).1) :
    (c.isDigit || c = '.') = true := by
  unfold scanFraction at hc
  split at hc
  · split at hc
    · cases hc
    · rename_i rest hne
      rcases List.mem_cons.mp hc with rfl | hc
      · rfl
      · rw [List.mem_takeWhile_imp hc]
        rfl
  · cases hc

theorem scanNumber_append (hb : b ≠ []) :
    scanNumber (b ++ y) = (scanNumber b).map fun (n, r) => (n, r ++ y) := by
  have hattaches : ∀ c : Char, (c.isDigit || c = '.') = true → attaches (some c) = true := by
    intro c hc
    rcases Bool.or_eq_true _ _ ▸ hc with hc | hc
    · exact attaches_of_isIdentRest (by simp [isIdentRest, isNameRest, Char.isAlphanum, hc])
    · simp [attaches, of_decide_eq_true hc]
  obtain ⟨c, hc, hpc⟩ := h.exists_not hb hattaches
  have hrest : (scanFraction (b.dropWhile Char.isDigit)).2 ≠ [] := by
    intro hnil
    have hcut := List.takeWhile_append_dropWhile (p := Char.isDigit) (l := b)
    have hfraction := (scanFraction_eq (b.dropWhile Char.isDigit)).1
    rw [hnil, List.append_nil] at hfraction
    rw [← hcut, List.mem_append, hfraction] at hc
    rcases hc with hc | hc
    · rw [List.mem_takeWhile_imp hc] at hpc
      cases hpc
    · rw [isDigit_or_dot_of_mem_scanFraction hc] at hpc
      cases hpc
  obtain ⟨d, r, hdr⟩ := List.exists_cons_of_ne_nil hrest
  simp only [scanNumber, h.takeWhile_isDigit, h.scanFraction_append, hdr, h.scanExponent_append]
  split <;> rfl

/-! ## Symbols -/

theorem after?_append {w : List Char} (hw : ∀ d ∈ w, isNameStart d = false) (r : List Char) :
    after? w (r ++ y) = (after? w r).map (· ++ y) := by
  induction w generalizing r with
  | nil => rfl
  | cons d w ih =>
    rw [List.forall_mem_cons] at hw
    rcases r with _ | ⟨c, r⟩
    · rcases y with _ | ⟨c, y⟩
      · rfl
      · have hne : d ≠ c := fun hd => h.head_ne hw.1 y (by rw [hd])
        simp [after?, hne]
    · rw [List.cons_append, after?, after?, ih hw.2]
      split <;> rfl

theorem scanSymbol_append (r : List Char) :
    scanSymbol (r ++ y) = (scanSymbol r).map fun (s, rest) => (s, rest ++ y) := by
  have hafter : ∀ s : Symbol, after? s.spelling.toList (r ++ y) =
      (after? s.spelling.toList r).map (· ++ y) := by
    intro s
    refine h.after?_append (fun d hd => Bool.eq_false_iff.mpr fun hstart => ?_) r
    have hword := (s.spelling_spec.2 d hd).1
    rw [isWord_of_isNameStart hstart] at hword
    cases hword
  unfold scanSymbol
  induction Symbol.all with
  | nil => rfl
  | cons s all ih =>
    rw [List.findSome?_cons, List.findSome?_cons, hafter]
    rcases after? s.spelling.toList r with _ | rest
    · exact ih
    · rfl

/-! ## Tokens -/

/-- A token that starts before the place ends before it, unless it is a string that is still open. -/
theorem scanToken_append (hb : b ≠ [])
    (hclosed : ∀ q r, b = q :: r → isQuote q = true → scanQuoted q r ≠ none) :
    scanToken (b ++ y) = (scanToken b).map fun (t, r) => (t, r ++ y) := by
  obtain ⟨c, r, rfl⟩ := List.exists_cons_of_ne_nil hb
  have hnumber := h.scanNumber_append hb
  have hsymbol := h.scanSymbol_append (c :: r)
  rw [List.cons_append] at hnumber hsymbol ⊢
  simp only [scanToken]
  split_ifs with hident hquote
  · have hstop : ∃ d ∈ r, isIdentRest d = false := by
      obtain ⟨d, hd, hpd⟩ := h.exists_not hb fun _ => attaches_of_isIdentRest
      rcases List.mem_cons.mp hd with rfl | hd
      · rw [isIdentRest_of_isIdentStart hident] at hpd
        cases hpd
      · exact ⟨d, hd, hpd⟩
    obtain ⟨htake, hdrop⟩ := takeWhile_append_of_stop (y := y) (.inl hstop)
    rw [htake, hdrop]
    rfl
  · have hq : isQuote c = true := by simpa [isQuote] using hquote
    obtain ⟨⟨a, rest⟩, hscan⟩ := Option.ne_none_iff_exists'.mp (hclosed c r rfl hq)
    obtain ⟨rfl, hquoted⟩ := quoted_of_scanQuoted hscan
    rw [hscan, List.append_assoc, scanQuoted_of_quoted (ne_backslash_of_isQuote hq) hquoted]
    rfl
  · rw [hnumber, hsymbol]
    rcases scanNumber (c :: r) with _ | ⟨n, rest⟩
    · rcases scanSymbol (c :: r) with _ | ⟨s, rest⟩ <;> rfl
    · rfl

end Seam

/-! ## Texts -/

theorem Scanned.exists_append {cs rest : List Char} {t : Token} (h : Scanned cs t rest) :
    ∃ w, cs = w ++ rest := by
  cases h with
  | word => exact ⟨_, rfl⟩
  | string => exact ⟨_, rfl⟩
  | number => exact ⟨_, rfl⟩
  | symbol => exact ⟨_, rfl⟩

/-- The text, read token by token, comes to a string that is not closed. -/
inductive InString : List Char → Prop where
  | here {blanks cs : List Char} {q : Char} : (∀ c ∈ blanks, isTokenBlank c = true) →
    isQuote q = true → scanQuoted q cs = none → InString (blanks ++ q :: cs)
  | later {blanks cs rest : List Char} {t : Token} : (∀ c ∈ blanks, isTokenBlank c = true) →
    scanToken cs = some (t, rest) → InString rest → InString (blanks ++ cs)

theorem InString.of_scanToken {cs rest : List Char} {t : Token}
    (hs : scanToken cs = some (t, rest)) (h : InString rest) : InString cs :=
  @InString.later [] cs rest t nofun hs h

theorem scanToken_of_open {q : Char} {cs : List Char} (hq : isQuote q = true)
    (h : scanQuoted q cs = none) : scanToken (q :: cs) = none := by
  have hident : isIdentStart q = false := by
    refine Bool.eq_false_iff.mpr fun hstart => ?_
    rw [isQuote_of_isIdentRest (isIdentRest_of_isIdentStart hstart)] at hq
    cases hq
  have hquote : (decide (q = '"') || decide (q = '\'')) = true := hq
  rw [scanToken, hident, if_neg Bool.false_ne_true, if_pos hquote, h]
  rfl

namespace Lexes

variable {b y blanks cs : List Char} {ts us vs : List Token}

theorem blank_append (hb : ∀ c ∈ blanks, isTokenBlank c = true) (h : Lexes cs ts) :
    Lexes (blanks ++ cs) ts := by
  cases h with
  | nil hb' => exact .nil (by simpa [or_imp, forall_and] using ⟨hb, hb'⟩)
  | cons hb' hs hrest =>
    rw [← List.append_assoc]
    exact .cons (by simpa [or_imp, forall_and] using ⟨hb, hb'⟩) hs hrest

theorem of_blank_append (hb : ∀ c ∈ blanks, isTokenBlank c = true) (h : Lexes (blanks ++ cs) ts) :
    Lexes cs ts := by
  induction blanks with
  | nil => exact h
  | cons c blanks ih =>
    rw [List.forall_mem_cons] at hb
    rcases h.of_cons with ⟨-, h⟩ | ⟨t, us, rest, -, hs, -⟩
    · exact ih hb.2 h
    · rw [not_isTokenBlank_of_scanToken hs] at hb
      cases hb.1

end Lexes

namespace Seam

variable {b y cs rest : List Char} {t : Token} {ts us vs : List Token}

theorem scanToken_of_some (h : Seam cs y) (hs : scanToken cs = some (t, rest)) :
    scanToken (cs ++ y) = some (t, rest ++ y) ∧ Seam rest y := by
  obtain ⟨w, hw⟩ := (scanned_of_scanToken hs).exists_append
  have hne : cs ≠ [] := by
    rintro rfl
    cases hs
  refine ⟨?_, suffix (hw ▸ h)⟩
  rw [h.scanToken_append hne, hs]
  · rfl
  · rintro q r rfl hq hnone
    rw [scanToken_of_open hq hnone] at hs
    cases hs

theorem lexes_append (h : Seam b y) (hus : Lexes b us) (hvs : Lexes y vs) :
    Lexes (b ++ y) (us ++ vs) := by
  induction hus with
  | nil hb => exact hvs.blank_append hb
  | cons hb hs _ ih =>
    obtain ⟨hs', hrest⟩ := h.suffix.scanToken_of_some hs
    rw [List.append_assoc]
    exact .cons hb hs' (ih hrest)

/-- A text within which a string stays open behind the place. -/
theorem inString_append (h : Seam b y) (hus : Lexes b us) (hy : InString y) : InString (b ++ y) := by
  induction hus with
  | nil hb =>
    cases hy with
    | here hb' hq hnone =>
      rw [← List.append_assoc]
      exact .here (by simpa [or_imp, forall_and] using ⟨hb, hb'⟩) hq hnone
    | later hb' hs hrest =>
      rw [← List.append_assoc]
      exact .later (by simpa [or_imp, forall_and] using ⟨hb, hb'⟩) hs hrest
  | cons hb hs _ ih =>
    obtain ⟨hs', hrest⟩ := h.suffix.scanToken_of_some hs
    rw [List.append_assoc]
    exact .later hb hs' (ih hrest)

theorem lexes_of_append : ∀ {b : List Char} {ts : List Token}, Seam b y → ¬ InString b →
    Lexes (b ++ y) ts → ∃ us vs, ts = us ++ vs ∧ Lexes b us ∧ Lexes y vs
  | b, ts, h, hopen, hts => by
    have hcut := List.takeWhile_append_dropWhile (p := isTokenBlank) (l := b)
    have hblank : ∀ c ∈ b.takeWhile isTokenBlank, isTokenBlank c = true :=
      List.all_eq_true.mp List.all_takeWhile
    rcases hd : b.dropWhile isTokenBlank with _ | ⟨c, r⟩ <;> rw [hd] at hcut
    · rw [List.append_nil] at hcut
      rw [← hcut] at hts ⊢
      exact ⟨[], ts, rfl, .nil hblank, hts.of_blank_append hblank⟩
    · have hc : isTokenBlank c = false := by
        simpa [hd] using List.head?_dropWhile_not isTokenBlank b
      have hseam : Seam (c :: r) y := suffix (hcut ▸ h)
      have hts' : Lexes (c :: r ++ y) ts := by
        rw [← hcut, List.append_assoc] at hts
        exact hts.of_blank_append hblank
      rcases hts'.of_cons with ⟨hc', -⟩ | ⟨t, ts', rest, rfl, hs, hrest⟩
      · rw [hc] at hc'
        cases hc'
      · have hclosed : ∀ q r', c :: r = q :: r' → isQuote q = true → scanQuoted q r' ≠ none := by
          rintro q r' heq hq hnone
          rw [heq] at hcut
          exact hopen (hcut ▸ .here hblank hq hnone)
        have hs : scanToken (c :: r ++ y) = some (t, rest) := hs
        rw [hseam.scanToken_append (List.cons_ne_nil c r) hclosed] at hs
        obtain ⟨⟨t', r'⟩, hs', heq⟩ := Option.map_eq_some_iff.mp hs
        cases heq
        have hlen : r'.length < b.length := by
          have := length_lt_of_scanToken hs'
          rw [← hcut, List.length_append]
          omega
        obtain ⟨us, vs, rfl, hus, hvs⟩ := lexes_of_append (hseam.scanToken_of_some hs').2
          (fun hin => hopen (hcut ▸ .later hblank hs' hin)) hrest
        exact ⟨t :: us, vs, rfl, hcut ▸ .cons hblank hs' hus, hvs⟩
termination_by b => b.length

end Seam

end LiveMarkup
