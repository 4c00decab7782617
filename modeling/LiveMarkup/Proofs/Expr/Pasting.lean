import LiveMarkup.Expr.Substitute
import LiveMarkup.Proofs.Expr.Ending

/-!
# Tokens of a text in which a name is replaced

The scan that replaces a name in a text passes over each token as a whole, and knows after it whether
a dot stands before the next one (`substituteAt_symbol` and the lemmas before it).  So where two words
are never neighbours and no number stands right before a dot, just the tokens of the name are replaced
that do not follow a dot, by the tokens of the new text (`LexesApart.lexes_substituteAt`): nothing that
was read apart runs together.
-/

namespace LiveMarkup

open Text

variable {name new cs rest y w : List Char} {b : Bool} {c q : Char} {t : Token} {ts us : List Token}
  {s : Symbol}

/-! ## The scan -/

/-- The replacement from some place on, with as many rounds as there are characters. -/
def substituteAt (name new : List Char) (afterDot : Bool) (cs : List Char) : List Char :=
  substituteFrom name new cs.length afterDot cs

theorem length_scanString (q : Char) (cs : List Char) : (scanString q cs).2.length ≤ cs.length := by
  fun_induction scanString q cs <;> simp_all <;> omega

theorem length_dropWhile_lt {p : Char → Bool} (hc : p c = true) (cs : List Char) :
    ((c :: cs).dropWhile p).length < (c :: cs).length := by
  rw [List.dropWhile_cons_of_pos hc, List.length_cons]
  exact Nat.lt_succ_of_le (List.dropWhile_suffix p).length_le

theorem isNumberRest_of_isDigit (h : c.isDigit = true) : isNumberRest c = true := by
  simp [isNumberRest, isNameRest, Char.isAlphanum, h]

/-- More rounds change nothing. -/
theorem substituteFrom_eq : ∀ {m n : Nat} {cs : List Char} {b : Bool}, cs.length ≤ m → cs.length ≤ n →
    substituteFrom name new m b cs = substituteFrom name new n b cs
  | 0, n, cs, b, hm, _ => by
    obtain rfl := List.length_eq_zero_iff.mp (Nat.le_zero.mp hm)
    cases n <;> rfl
  | m + 1, 0, cs, b, _, hn => by
    obtain rfl := List.length_eq_zero_iff.mp (Nat.le_zero.mp hn)
    rfl
  | m + 1, n + 1, [], b, _, _ => rfl
  | m + 1, n + 1, c :: cs, b, hm, hn => by
    rw [List.length_cons] at hm hn
    have ih : ∀ {rest b}, rest.length ≤ cs.length →
        substituteFrom name new m b rest = substituteFrom name new n b rest := fun h =>
      substituteFrom_eq (h.trans (by omega)) (h.trans (by omega))
    simp only [substituteFrom]
    split_ifs with h1 h2 h3
    · rw [ih (length_scanString c cs)]
    · rw [ih (Nat.le_of_lt_succ (length_dropWhile_lt (isNumberRest_of_isDigit h2) cs))]
    · rw [ih (Nat.le_of_lt_succ (length_dropWhile_lt (isIdentRest_of_isIdentStart h3) cs))]
    · rw [ih (Nat.le_of_lt_succ (length_dropWhile_lt (isIdentRest_of_isIdentStart h3) cs))]
    · rw [ih le_rfl]
    · rw [ih le_rfl]

theorem substituteAt_eq {n : Nat} (hn : cs.length ≤ n) :
    substituteFrom name new n b cs = substituteAt name new b cs :=
  substituteFrom_eq hn le_rfl

theorem scanString_of_quoted {a : List Char} (hq : q ≠ '\\') (h : Quoted q a) (rest : List Char) :
    scanString q (a ++ rest) = (a, rest) := by
  induction h with
  | close =>
    rw [List.singleton_append]
    unfold scanString
    split
    · rename_i heq
      cases heq
    · rename_i heq
      exact absurd (List.cons.inj heq).1 hq
    · rename_i heq
      obtain ⟨rfl, rfl⟩ := List.cons.inj heq
      simp
  | escape _ _ ih => simp [scanString, ih]
  | @char c cs hc hbackslash _ ih =>
    rw [List.cons_append]
    unfold scanString
    split
    · rename_i heq
      cases heq
    · rename_i heq
      exact absurd (List.cons.inj heq).1 hbackslash
    · rename_i heq
      obtain ⟨rfl, rfl⟩ := List.cons.inj heq
      rw [if_neg hc, ih]

/-! ## Passing over tokens -/

@[simp] theorem substituteAt_nil : substituteAt name new b [] = [] := rfl

theorem substituteAt_string {a : List Char} (hq : isQuote q = true) (ha : Quoted q a) :
    substituteAt name new b (q :: a ++ rest) = q :: a ++ substituteAt name new false rest := by
  have hscan := scanString_of_quoted (ne_backslash_of_isQuote hq) ha rest
  rw [List.cons_append, substituteAt, List.length_cons, substituteFrom,
    if_pos (by simpa [isQuote] using hq), hscan]
  exact congrArg (q :: a ++ ·) (substituteAt_eq (by simp))

/-- A character that is passed over by itself. -/
def IsMark (c : Char) : Prop :=
  isQuote c = false ∧ c.isDigit = false ∧ isIdentStart c = false

instance (c : Char) : Decidable (IsMark c) :=
  inferInstanceAs (Decidable (_ ∧ _ ∧ _))

theorem IsMark.of_isTokenBlank (h : isTokenBlank c = true) : IsMark c := by
  simp only [isTokenBlank, Bool.or_eq_true, decide_eq_true_eq] at h
  rcases h with ((rfl | rfl) | rfl) | rfl <;> decide

theorem substituteAt_blank (hc : IsMark c) (hblank : isBlank c = true) :
    substituteAt name new b (c :: cs) = c :: substituteAt name new b cs := by
  rw [substituteAt, List.length_cons, substituteFrom, if_neg (by simpa [isQuote] using hc.1),
    if_neg (by simp [hc.2.1]), if_neg (by simp [hc.2.2]), if_pos hblank, substituteAt]

theorem substituteAt_mark (hc : IsMark c) (hblank : isBlank c = false) :
    substituteAt name new b (c :: cs) = c :: substituteAt name new (c = '.') cs := by
  rw [substituteAt, List.length_cons, substituteFrom, if_neg (by simpa [isQuote] using hc.1),
    if_neg (by simp [hc.2.1]), if_neg (by simp [hc.2.2]), if_neg (by simp [hblank]),
    substituteAt]

theorem substituteAt_word (hne : w ≠ []) (hword : IdentWord w)
    (hrest : ∀ c ∈ rest.head?, isIdentRest c = false) :
    substituteAt name new b (w ++ rest) =
      (if w = name && !b then new else w) ++ substituteAt name new false rest := by
  obtain ⟨c, w, rfl⟩ := List.exists_cons_of_ne_nil hne
  have hstart := hword.1 c rfl
  obtain ⟨htake, hdrop⟩ := takeWhile_append_cons hword.2 hrest
  have hquote := isQuote_of_isIdentRest (isIdentRest_of_isIdentStart hstart)
  rw [List.cons_append] at htake hdrop ⊢
  rw [substituteAt, List.length_cons, substituteFrom, if_neg (by simpa [isQuote] using hquote),
    if_neg (by simp [not_isDigit_of_isIdentStart hstart]), if_pos hstart, htake, hdrop,
    substituteAt_eq (by simp)]

/-- A run of characters that starts with a digit is passed over as a whole. -/
theorem substituteAt_run (hw : ∀ c ∈ w, isNumberRest c = true)
    (hstart : ∃ c ∈ w.head?, c.isDigit = true)
    (hrest : ∀ c ∈ rest.head?, isNumberRest c = false) :
    substituteAt name new b (w ++ rest) = w ++ substituteAt name new false rest := by
  obtain ⟨c, hc, hdigit⟩ := hstart
  obtain ⟨w, rfl⟩ := List.head?_eq_some_iff.mp hc
  obtain ⟨htake, hdrop⟩ := takeWhile_append_cons hw hrest
  rw [List.cons_append] at htake hdrop ⊢
  rw [substituteAt, List.length_cons, substituteFrom,
    if_neg (by simpa [isQuote] using (isNumberChar_of_isDigit hdigit).1), if_pos hdigit, htake, hdrop,
    substituteAt_eq (by simp)]

theorem substituteAt_blanks (hb : ∀ c ∈ w, isTokenBlank c = true) :
    substituteAt name new b (w ++ rest) = w ++ substituteAt name new b rest := by
  induction w with
  | nil => rfl
  | cons c w ih =>
    rw [List.forall_mem_cons] at hb
    rw [List.cons_append, substituteAt_blank (.of_isTokenBlank hb.1) (isBlank_of_isTokenBlank hb.1),
      ih hb.2, List.cons_append]

theorem substituteAt_marks (hne : w ≠ []) (hw : ∀ c ∈ w, IsMark c ∧ isBlank c = false) :
    substituteAt name new b (w ++ rest) = w ++ substituteAt name new (w.getLast? = some '.') rest := by
  induction w generalizing b with
  | nil => exact absurd rfl hne
  | cons c w ih =>
    rw [List.forall_mem_cons] at hw
    rw [List.cons_append, substituteAt_mark hw.1.1 hw.1.2]
    rcases w with _ | ⟨d, w⟩
    · simp
    · rw [ih (List.cons_ne_nil d w) hw.2, List.getLast?_cons_cons]
      rfl

theorem substituteAt_symbol (s : Symbol) :
    substituteAt name new b (s.spelling.toList ++ rest) =
      s.spelling.toList ++ substituteAt name new (s = .dot) rest := by
  have hmarks : ∀ c ∈ s.spelling.toList, IsMark c ∧ isBlank c = false := by
    have h : s.spelling.toList.all (fun c => IsMark c && !isBlank c) = true := by cases s <;> decide
    simpa using List.all_eq_true.mp h
  have hdot : s.spelling.toList.getLast? = some '.' ↔ s = .dot := by
    cases s <;> decide
  obtain ⟨c, w, hs, -⟩ := s.spelling_head
  rw [substituteAt_marks (by simp [hs]) hmarks]
  simp only [hdot]

/-! ## Passing over numbers -/

theorem IsDigits.run {ds : List Char} (h : IsDigits ds) :
    (∀ c ∈ ds, isNumberRest c = true) ∧ ∃ c ∈ ds.head?, c.isDigit = true := by
  obtain ⟨c, ds, rfl⟩ := List.exists_cons_of_ne_nil h.1
  exact ⟨fun d hd => isNumberRest_of_isDigit (h.2 d hd), c, rfl, h.2 c List.mem_cons_self⟩

/-- The part of a number before the sign of its exponent is passed over. -/
theorem substituteAt_mantissa {whole fraction : List Char}
    (hwhole : ∀ c ∈ whole, c.isDigit = true) (hfraction : IsFraction fraction)
    (hne : whole = [] → fraction ≠ []) (hw : ∀ c ∈ w, isNumberRest c = true)
    (hrest : ∀ c ∈ rest.head?, isNumberRest c = false) :
    substituteAt name new b (whole ++ (fraction ++ (w ++ rest))) =
      whole ++ (fraction ++ (w ++ substituteAt name new false rest)) := by
  rcases whole with _ | ⟨c, whole⟩
  · obtain ⟨ds, rfl, hds⟩ := hfraction.resolve_left (hne rfl)
    obtain ⟨hrun, d, hd, hdigit⟩ := hds.run
    have hstart : ∃ c ∈ (ds ++ w).head?, c.isDigit = true :=
      ⟨d, by rw [List.head?_append, Option.mem_def.mp hd]; rfl, hdigit⟩
    simp only [List.nil_append, List.cons_append]
    rw [substituteAt_mark (by decide) (by decide), ← List.append_assoc,
      substituteAt_run (List.forall_mem_append.mpr ⟨hrun, hw⟩) hstart hrest, List.append_assoc]
  · have hpoint : ∀ d ∈ fraction, isNumberRest d = true := by
      rcases hfraction with rfl | ⟨ds, rfl, hds⟩
      · simp
      · exact List.forall_mem_cons.mpr ⟨by decide, hds.run.1⟩
    have hrun : ∀ d ∈ c :: whole ++ (fraction ++ w), isNumberRest d = true :=
      List.forall_mem_append.mpr ⟨fun d hd => isNumberRest_of_isDigit (hwhole d hd),
        List.forall_mem_append.mpr ⟨hpoint, hw⟩⟩
    rw [← List.append_assoc, ← List.append_assoc, List.append_assoc (c :: whole),
      substituteAt_run hrun ⟨c, rfl, hwhole c List.mem_cons_self⟩ hrest]
    simp only [List.append_assoc]

theorem substituteAt_numeral (hw : IsNumeral w) (hrest : ∀ c ∈ rest.head?, isNumberRest c = false) :
    substituteAt name new b (w ++ rest) = w ++ substituteAt name new false rest := by
  obtain ⟨whole, fraction, exponent, rfl, hwhole, hfraction, hexponent, hne⟩ := hw
  simp only [List.append_assoc]
  rcases hexponent with rfl | ⟨e, sign, ds, rfl, he, hsign, hds⟩
  · exact substituteAt_mantissa hwhole hfraction hne (by simp) hrest
  · have he : isNumberRest e = true := by
      rcases he with rfl | rfl <;> decide
    by_cases hnone : sign = []
    · subst hnone
      exact substituteAt_mantissa hwhole hfraction hne (List.forall_mem_cons.mpr ⟨he, hds.run.1⟩) hrest
    · -- the run ends before the sign, and another one starts behind it
      obtain ⟨s, rfl, hs⟩ : ∃ s, sign = [s] ∧ (s = '+' ∨ s = '-') := by
        rcases hsign with rfl | rfl | rfl
        · exact absurd rfl hnone
        · exact ⟨_, rfl, .inl rfl⟩
        · exact ⟨_, rfl, .inr rfl⟩
      obtain ⟨hplain, hblank, hstop, hdot⟩ :
          IsMark s ∧ isBlank s = false ∧ isNumberRest s = false ∧ s ≠ '.' := by
        rcases hs with rfl | rfl <;> decide
      have hfront : substituteAt name new b (whole ++ (fraction ++ ([e] ++ s :: (ds ++ rest)))) =
          whole ++ (fraction ++ ([e] ++ substituteAt name new false (s :: (ds ++ rest)))) :=
        substituteAt_mantissa hwhole hfraction hne (by simpa using he) (by simpa using hstop)
      simp only [List.cons_append, List.nil_append] at hfront ⊢
      rw [hfront, substituteAt_mark hplain hblank, substituteAt_run hds.run.1 hds.run.2 hrest]

/-! ## Tokens in a text -/

/-- Whether a token is a symbol. -/
def Token.isSymbol : Token → Bool
  | symbol _ => true
  | _ => false

theorem Token.exists_of_isNumber (h : t.isNumber = true) : ∃ n, t = .number n := by
  cases t <;> first | exact ⟨_, rfl⟩ | cases h

/-- Of two neighbours one is a symbol. -/
def Token.Separate (t t' : Token) : Prop :=
  t.isSymbol = true ∨ t'.isSymbol = true

/-- Tokens with those of a name replaced by others, which may come after a dot. -/
def paste (x : String) (us : List Token) : Bool → List Token → List Token
  | _, [] => []
  | afterDot, t :: ts =>
    (if t = .ident x && !afterDot then us else [t]) ++ paste x us (t = .symbol .dot) ts

/-- The tokens of a text, where no number stands right before a dot. -/
inductive LexesApart : List Char → List Token → Prop where
  | nil {blanks : List Char} : (∀ c ∈ blanks, isTokenBlank c = true) → LexesApart blanks []
  | cons {blanks cs rest : List Char} {t : Token} {ts : List Token} :
    (∀ c ∈ blanks, isTokenBlank c = true) → scanToken cs = some (t, rest) →
      (t.isNumber = true → rest.head? ≠ some '.') → LexesApart rest ts →
      LexesApart (blanks ++ cs) (t :: ts)

theorem LexesApart.lexes (h : LexesApart cs ts) : Lexes cs ts := by
  induction h with
  | nil hb => exact .nil hb
  | cons hb hs _ _ ih => exact .cons hb hs ih

theorem isNumeral_of_scanToken {n : String} (h : scanToken cs = some (.number n, rest)) :
    IsNumeral n.toList := by
  rcases cs with _ | ⟨c, cs⟩
  · cases h
  · rw [scanToken] at h
    split_ifs at h
    · simp only [Token.ofWord, Option.some.injEq, Prod.mk.injEq] at h
      split at h <;> cases h.1
    · obtain ⟨_, _, hr⟩ := Option.map_eq_some_iff.mp h
      cases hr
    · split at h
      · rename_i hscan
        cases h
        rw [String.toList_ofList]
        exact isNumeral_of_scanNumber hscan
      · obtain ⟨_, _, hr⟩ := Option.map_eq_some_iff.mp h
        cases hr

/-- A text that starts with a blank or a symbol. -/
theorem Lexes.head_spec (h : Lexes cs ts) (hts : ∀ t ∈ ts.head?, t.isSymbol = true) :
    ∀ c ∈ cs.head?, isIdentRest c = false ∧ (c = '.' → ∀ d ∈ cs.tail.head?, d.isDigit = false) := by
  intro c hc
  obtain ⟨cs, rfl⟩ := List.head?_eq_some_iff.mp hc
  rcases h.of_cons with ⟨hblank, -⟩ | ⟨t, us, rest, rfl, hs, -⟩
  · simp only [isTokenBlank, Bool.or_eq_true, decide_eq_true_eq] at hblank
    rcases hblank with ((rfl | rfl) | rfl) | rfl <;> exact ⟨by decide, fun h => absurd h (by decide)⟩
  · obtain ⟨s, rfl⟩ : ∃ s, t = .symbol s := by
      have := hts t rfl
      cases t <;> first | exact ⟨_, rfl⟩ | cases this
    obtain ⟨-, heq, hend⟩ := readable_of_scanToken hs
    obtain ⟨d, w, hw, hrest, -, hdot⟩ := s.spelling_head
    rw [Token.spelling, hw, List.cons_append] at heq
    obtain ⟨rfl, rfl⟩ := List.cons.inj heq
    refine ⟨hrest, fun hc => ?_⟩
    obtain rfl := hdot hc
    obtain rfl : [] = w := (List.cons.inj hw).2
    exact fun d hd => (hend rfl d hd).2 rfl

theorem Lexes.numberEnds (h : Lexes cs ts) (hts : ∀ t ∈ ts.head?, t.isSymbol = true) :
    NumberEnds cs := by
  rcases cs with _ | ⟨c, cs⟩
  · trivial
  · obtain ⟨hrest, hdot⟩ := h.head_spec hts c rfl
    refine ⟨not_isDigit_of_not_isIdentRest hrest, ?_, ?_, hdot⟩ <;> rintro rfl <;>
      exact absurd hrest (by decide)

/-! ## Texts that are pasted -/

/-- The symbols with which an operand starts. -/
def openings : List Symbol :=
  [.openParen, .openBrace]

/-- The symbols with which an operand or an access ends. -/
def closings : List Symbol :=
  [.closeParen, .closeBracket, .closeBrace]

/-- Tokens that can stand where a name stood. -/
structure Operandlike (us : List Token) : Prop where
  nonempty : us ≠ []
  separate : us.IsChain Token.Separate
  opens : ∀ s, us.head? = some (.symbol s) → s ∈ openings
  closes : ∀ s, us.getLast? = some (.symbol s) → s ∈ closings

theorem goesOn_of_closing (hs : s ∈ closings) (c : Char) : s.goesOn c = false := by
  have table : ∀ s ∈ closings, ∀ s' ∈ Symbol.all,
      s'.spelling.toList.dropLast ≠ s.spelling.toList := by decide
  rw [Bool.eq_false_iff]
  intro h
  obtain ⟨s', hs', heq⟩ := List.any_eq_true.mp h
  exact table s hs s' hs' (by simp [of_decide_eq_true heq])

/-- But for numbers, it is the next character that tells whether a token goes on. -/
theorem Token.EndsBefore.congr (h : t.EndsBefore rest) (ht : t.isNumber = false)
    (hhead : y.head? = rest.head?) : t.EndsBefore y := by
  cases t with
  | number => cases ht
  | string => trivial
  | reserved | ident | symbol =>
    simp only [Token.EndsBefore] at h ⊢
    rwa [hhead]

/-- What is read before a text that continues no token is read with it. -/
theorem Lexes.append (h : Lexes cs ts) (hne : ts ≠ []) (hsep : (ts ++ us).IsChain Token.Separate)
    (hend : ∀ s, ts.getLast? = some (.symbol s) → s ∈ closings) (hy : Lexes y us)
    (hword : ∀ c ∈ y.head?, isIdentRest c = false) : Lexes (cs ++ y) (ts ++ us) := by
  induction h with
  | nil => exact absurd rfl hne
  | @cons blanks cs rest t ts hb hs hrest ih =>
    have hlater : Lexes (rest ++ y) (ts ++ us) := by
      by_cases hts : ts = []
      · subst hts
        exact hy.blank_append (by cases hrest with | nil hb => exact hb)
      · exact ih hts (List.isChain_cons.mp hsep).2 fun s hs => hend s (by
          rwa [List.getLast?_cons_of_ne_nil hts])
    obtain ⟨hread, rfl, hends⟩ := readable_of_scanToken hs
    rw [List.append_assoc, List.append_assoc]
    refine .cons hb (hread _ ?_) hlater
    cases hnumber : t.isNumber with
    | true =>
      obtain ⟨n, rfl⟩ := Token.exists_of_isNumber hnumber
      refine hlater.numberEnds fun u hu => ?_
      exact ((List.isChain_cons.mp hsep).1 u hu).resolve_left (by simp [Token.isSymbol])
    | false =>
      by_cases hnil : rest = []
      · subst hnil
        obtain rfl := hrest.eq_nil
        cases t with
        | number => cases hnumber
        | reserved => exact hword
        | ident => exact hword
        | string => trivial
        | symbol s =>
          have hs := hend s rfl
          exact fun c _ => ⟨goesOn_of_closing hs c, fun hdot => absurd (hdot ▸ hs) (by decide)⟩
      · exact (hends hnumber).congr hnumber (List.head?_append_of_ne_nil rest hnil)

/-- A text with such tokens goes on from no symbol before it. -/
theorem Operandlike.not_goesOn (hus : Operandlike us) (h : Lexes cs us) (hc : c ∈ cs.head?) :
    s.goesOn c = false := by
  rw [Bool.eq_false_iff]
  intro hgo
  obtain ⟨cs, rfl⟩ := List.head?_eq_some_iff.mp hc
  have hc := Symbol.eq_of_goesOn hgo
  obtain ⟨hblank, hstart, hquote, hdigit, hdot⟩ : isTokenBlank c = false ∧
      isIdentStart c = false ∧ isQuote c = false ∧ c.isDigit = false ∧ c ≠ '.' := by
    rcases hc with rfl | rfl <;> decide
  rcases h.of_cons with ⟨hb, -⟩ | ⟨t, ts, rest, rfl, hs, -⟩
  · rw [hblank] at hb
    cases hb
  · have hnumber : scanNumber (c :: cs) = none :=
      scanNumber_eq_none_iff.mpr ⟨hdigit, fun h => absurd h hdot⟩
    rw [scanToken, if_neg (by simp [hstart]), if_neg (by simpa [isQuote] using hquote), hnumber] at hs
    obtain ⟨⟨s', r⟩, hscan, hr⟩ := Option.map_eq_some_iff.mp hs
    cases hr
    have table : ∀ s ∈ openings, s.spelling.toList.head? ≠ some '=' ∧
        s.spelling.toList.head? ≠ some '?' := by decide
    obtain ⟨d, w, hw, -⟩ := s'.spelling_head
    have hopen := table s' (hus.opens s' rfl)
    have heq := (scanSymbol_eq_some_iff.mp hscan).1
    rw [hw, List.cons_append] at heq
    obtain ⟨rfl, -⟩ := List.cons.inj heq
    rw [hw, List.head?_cons, ne_eq, Option.some_inj, ne_eq, Option.some_inj] at hopen
    exact hc.elim hopen.1 hopen.2

/-! ## What the replacement leaves -/

/-- The text starts as it did, unless it starts with the new text. -/
theorem head?_substituteAt (hnew : new ≠ []) :
    (substituteAt name new b cs).head? = cs.head? ∨
      (b = false ∧ (∃ c ∈ cs.head?, isIdentStart c = true) ∧
        (substituteAt name new b cs).head? = new.head?) := by
  rcases cs with _ | ⟨c, cs⟩
  · exact .inl rfl
  · rw [substituteAt, List.length_cons, substituteFrom]
    split_ifs with hquote hdigit hstart hblank
    · exact .inl rfl
    · rw [List.takeWhile_cons_of_pos (isNumberRest_of_isDigit hdigit)]
      exact .inl rfl
    · simp only
      split_ifs with hword
      · simp only [Bool.and_eq_true, Bool.not_eq_true'] at hword
        exact .inr ⟨hword.2, ⟨c, rfl, hstart⟩, List.head?_append_of_ne_nil new hnew⟩
      · rw [List.takeWhile_cons_of_pos (isIdentRest_of_isIdentStart hstart)]
        exact .inl rfl
    · exact .inl rfl
    · exact .inl rfl

theorem Token.EndsBefore.substituteAt (hus : Operandlike us) (hnew : Lexes new us)
    (h : t.EndsBefore rest) (ht : t.isNumber = false) :
    t.EndsBefore (substituteAt name new (t = .symbol .dot) rest) := by
  have hne : new ≠ [] := by
    rintro rfl
    exact hus.nonempty hnew.eq_nil
  rcases (head?_substituteAt hne : (LiveMarkup.substituteAt name new (t = .symbol .dot) rest).head? =
    rest.head? ∨ _) with hsame | ⟨hdot, ⟨c, hc, hstart⟩, hhead⟩
  · exact h.congr ht hsame
  · have hrest := isIdentRest_of_isIdentStart hstart
    cases t with
    | number => cases ht
    | string => trivial
    | reserved | ident => exact absurd ((h c hc).symm.trans hrest) Bool.false_ne_true
    | symbol s =>
      intro d hd
      rw [hhead] at hd
      exact ⟨hus.not_goesOn hnew hd, fun h => by simp [h] at hdot⟩

/-- The replacement goes from token to token. -/
theorem substituteAt_token (hx : Reserved.ofSpelling? (String.ofList name) = none)
    (hs : scanToken cs = some (t, rest))
    (hnumber : t.isNumber = true → ∀ c ∈ rest.head?, isNumberRest c = false) :
    substituteAt name new b cs =
      (if t = .ident (String.ofList name) && !b then new else t.spelling.toList) ++
        substituteAt name new (t = .symbol .dot) rest := by
  have hscanned := scanned_of_scanToken hs
  cases hscanned with
  | @word w _ hne hword hrest =>
    have hident : Token.ofWord w = .ident (String.ofList name) ↔ w = name := by
      refine ⟨fun h => ?_, ?_⟩
      · obtain ⟨heq, -⟩ := Token.ofWord_eq_ident h
        exact (String.ofList_injective heq).symm
      · rintro rfl
        simp [Token.ofWord, hx]
    have hdot : Token.ofWord w ≠ .symbol .dot := by
      simp only [Token.ofWord]
      split <;> simp
    rw [substituteAt_word hne hword hrest, Token.spelling_ofWord]
    simp only [hident, hdot, decide_false]
  | string hq ha =>
    rw [substituteAt_string hq ha]
    simp [Token.spelling]
  | @number w =>
    have hw := isNumeral_of_scanToken hs
    rw [String.toList_ofList] at hw
    rw [substituteAt_numeral hw (hnumber rfl)]
    simp [Token.spelling]
  | @symbol s =>
    rw [substituteAt_symbol]
    simp [Token.spelling]

theorem isSymbol_of_mem_head?_paste {x : String} (hts : ∀ t ∈ ts.head?, t.isSymbol = true) :
    ∀ t ∈ (paste x us b ts).head?, t.isSymbol = true := by
  rcases ts with _ | ⟨t, ts⟩
  · simp [paste]
  · have ht := hts t rfl
    have hx : t ≠ .ident x := by
      rintro rfl
      cases ht
    simpa [paste, hx] using ht

theorem isChain_append_paste {x : String} {as : List Token} (has : as.IsChain Token.Separate)
    (hts : ∀ t ∈ ts.head?, t.isSymbol = true) (h : (paste x us b ts).IsChain Token.Separate) :
    (as ++ paste x us b ts).IsChain Token.Separate :=
  has.append h fun _ _ v hv => .inr (isSymbol_of_mem_head?_paste hts v hv)

/-- Symbols still stand between the others. -/
theorem isChain_paste {x : String} (hus : us.IsChain Token.Separate)
    (hts : ts.IsChain Token.Separate) : (paste x us b ts).IsChain Token.Separate := by
  induction ts generalizing b with
  | nil => exact .nil
  | cons t ts ih =>
    obtain ⟨hhead, hchain⟩ := List.isChain_cons.mp hts
    have hrest : (paste x us (t = .symbol .dot) ts).IsChain Token.Separate := ih hchain
    have hsymbol : t.isSymbol = false → ∀ u ∈ ts.head?, u.isSymbol = true := fun ht u hu =>
      (hhead u hu).resolve_left (by simp [ht])
    rw [paste]
    split_ifs with hpaste
    · simp only [Bool.and_eq_true, decide_eq_true_eq] at hpaste
      obtain ⟨rfl, -⟩ := hpaste
      exact isChain_append_paste hus (hsymbol rfl) hrest
    · cases ht : t.isSymbol with
      | true =>
        refine List.IsChain.append (.singleton t) hrest fun u hu v _ => .inl ?_
        obtain rfl : t = u := by simpa using hu
        exact ht
      | false => exact isChain_append_paste (.singleton t) (hsymbol ht) hrest

/-- With a name replaced in a text, just the tokens of the name that follow no dot are replaced. -/
theorem LexesApart.lexes_substituteAt (hx : Reserved.ofSpelling? (String.ofList name) = none)
    (hus : Operandlike us) (hnew : Lexes new us) (h : LexesApart cs ts)
    (hts : ts.IsChain Token.Separate) :
    Lexes (substituteAt name new b cs) (paste (String.ofList name) us b ts) := by
  induction h generalizing b with
  | @nil blanks hb =>
    rw [← List.append_nil blanks, substituteAt_blanks hb, substituteAt_nil, List.append_nil]
    exact .nil hb
  | @cons blanks cs rest t ts hb hs hdot hrest ih =>
    obtain ⟨hhead, hchain⟩ := List.isChain_cons.mp hts
    have ih := ih (b := t = .symbol .dot) hchain
    have hsymbol : t.isSymbol = false → ∀ u ∈ ts.head?, u.isSymbol = true := fun ht u hu =>
      (hhead u hu).resolve_left (by simp [ht])
    obtain ⟨hread, -, hend⟩ := readable_of_scanToken hs
    have hstop : t.isNumber = true → ∀ c ∈ rest.head?, isNumberRest c = false := fun ht c hc => by
      obtain ⟨n, rfl⟩ := Token.exists_of_isNumber ht
      have hpoint : c ≠ '.' := by
        rintro rfl
        exact hdot ht hc
      have hword := (hrest.lexes.head_spec (hsymbol rfl) c hc).1
      simp only [isIdentRest, Bool.or_eq_false_iff] at hword
      simp [isNumberRest, hword.1, hpoint]
    rw [substituteAt_blanks hb, substituteAt_token hx hs hstop, paste]
    refine .blank_append hb ?_
    split_ifs with hpaste
    · simp only [Bool.and_eq_true, decide_eq_true_eq] at hpaste
      obtain ⟨rfl, -⟩ := hpaste
      have hword : ∀ c ∈ (substituteAt name new false rest).head?, isIdentRest c = false :=
        (hend rfl).substituteAt hus hnew rfl
      exact hnew.append hus.nonempty (isChain_append_paste hus.separate (hsymbol rfl)
        (isChain_paste hus.separate hchain)) hus.closes ih hword
    · rw [← List.nil_append (_ ++ _)]
      refine .cons (List.forall_mem_nil _) (hread _ ?_) ih
      cases hnumber : t.isNumber with
      | true =>
        obtain ⟨n, rfl⟩ := Token.exists_of_isNumber hnumber
        exact ih.numberEnds (isSymbol_of_mem_head?_paste (hsymbol rfl))
      | false => exact (hend hnumber).substituteAt hus hnew hnumber

end LiveMarkup
