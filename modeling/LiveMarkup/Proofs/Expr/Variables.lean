import Mathlib
import LiveMarkup.Proofs.Expr.Lookup
import LiveMarkup.Proofs.Expr.Mask
import LiveMarkup.Proofs.Expr.Parser

/-!
# Which names are found in an expression text

A name that an evaluation looks up is a word by itself once strings are blanked, since no number
stands right before it (`lexFrom_word`).  So it is found exactly if it is one of those that are not
passed over, as names with a dollar sign are (`mem_expressionVars_iff`).
-/

namespace LiveMarkup

open Text

/-! ## Characters -/

theorem toNat_lt_of_isAlphanum {c : Char} (h : c.isAlphanum = true) : c.toNat < 0x80 := by
  simp only [Char.isAlphanum, Char.isAlpha, Char.isUpper, Char.isLower, Char.isDigit, Bool.or_eq_true,
    Bool.and_eq_true, decide_eq_true_eq, ge_iff_le, UInt32.le_iff_toNat_le] at h
  have : c.toNat = c.val.toNat := rfl
  simp at h
  omega

theorem isWord_of_isNameRest {c : Char} (h : isNameRest c = true) : isWord c = true := by
  simp only [isNameRest, Bool.or_eq_true, decide_eq_true_eq] at h
  rcases h with h | rfl
  · simp [isWord, toNat_lt_of_isAlphanum h, h]
  · decide

theorem isNameRest_of_isNameStart {c : Char} (h : isNameStart c = true) : isNameRest c = true := by
  simp only [isNameStart, isNameRest, Char.isAlphanum, Bool.or_eq_true] at h ⊢
  rcases h with h | h
  · exact .inl (.inl h)
  · exact .inr h

theorem isIdentRest_of_isIdentStart {c : Char} (h : isIdentStart c = true) :
    isIdentRest c = true := by
  simp only [isIdentStart, isIdentRest, Bool.or_eq_true] at h ⊢
  exact h.imp_left isNameRest_of_isNameStart

theorem isQuote_of_isIdentRest {c : Char} (h : isIdentRest c = true) : isQuote c = false := by
  rw [Bool.eq_false_iff]
  intro hq
  simp only [isQuote, Bool.or_eq_true, decide_eq_true_eq] at hq
  rcases hq with rfl | rfl <;> revert h <;> decide

/-! ## Tokens -/

/-- A character of a number: no quote, and no word character that could not continue a name. -/
def IsNumberChar (c : Char) : Prop :=
  isQuote c = false ∧ (isIdentRest c = true ∨ isWord c = false)

instance (c : Char) : Decidable (IsNumberChar c) :=
  inferInstanceAs (Decidable (_ ∧ _))

theorem isNumberChar_of_isDigit {c : Char} (h : c.isDigit = true) : IsNumberChar c := by
  have hc : isIdentRest c = true := by simp [isIdentRest, isNameRest, Char.isAlphanum, h]
  exact ⟨isQuote_of_isIdentRest hc, .inl hc⟩

theorem isNumberChar_takeWhile (cs : List Char) :
    ∀ c ∈ cs.takeWhile Char.isDigit, IsNumberChar c := fun _ hc =>
  isNumberChar_of_isDigit (List.all_eq_true.mp List.all_takeWhile _ hc)

theorem scanFraction_eq (cs : List Char) :
    cs = (scanFraction cs).1 ++ (scanFraction cs).2 ∧
      ∀ c ∈ (scanFraction cs).1, IsNumberChar c := by
  unfold scanFraction
  split
  · rename_i cs
    split
    · simp
    · refine ⟨by simp, fun c hc => ?_⟩
      rcases List.mem_cons.mp hc with rfl | hc
      · decide
      · exact isNumberChar_takeWhile cs c hc
  · simp

theorem scanSign_eq (cs : List Char) :
    cs = (scanSign cs).1 ++ (scanSign cs).2 ∧ ∀ c ∈ (scanSign cs).1, IsNumberChar c := by
  unfold scanSign
  split <;> simp +decide

theorem scanExponent_eq (cs : List Char) :
    cs = (scanExponent cs).1 ++ (scanExponent cs).2 ∧
      ∀ c ∈ (scanExponent cs).1, IsNumberChar c := by
  rcases cs with _ | ⟨e, cs⟩
  · simp [scanExponent]
  · unfold scanExponent
    simp only
    split
    · rename_i he
      have hq : IsNumberChar e := by
        simp only [Bool.or_eq_true, decide_eq_true_eq] at he
        rcases he with rfl | rfl <;> decide
      obtain ⟨hcs, hsign⟩ := scanSign_eq cs
      split
      · simp
      · refine ⟨by simp [← hcs], fun c hc => ?_⟩
        rcases List.mem_cons.mp hc with rfl | hc
        · exact hq
        · exact (List.mem_append.mp hc).elim (hsign c) (isNumberChar_takeWhile _ c)
    · simp

theorem scanNumber_eq {cs number rest : List Char} (h : scanNumber cs = some (number, rest)) :
    cs = number ++ rest ∧ (∀ c ∈ number, IsNumberChar c) ∧ number ≠ [] := by
  unfold scanNumber at h
  simp only at h
  split_ifs at h with hn
  cases h
  obtain ⟨hf, hqf⟩ := scanFraction_eq (cs.dropWhile Char.isDigit)
  obtain ⟨he, hqe⟩ := scanExponent_eq (scanFraction (cs.dropWhile Char.isDigit)).2
  refine ⟨?_, fun c hc => ?_, fun h => hn ?_⟩
  · rw [List.append_assoc, ← he, List.append_assoc, ← hf, List.takeWhile_append_dropWhile]
  · simp only [List.mem_append] at hc
    rcases hc with (hc | hc) | hc
    · exact isNumberChar_takeWhile cs c hc
    · exact hqf c hc
    · exact hqe c hc
  · simp only [List.append_eq_nil_iff] at h
    simp [h]

theorem Symbol.spelling_spec (s : Symbol) : s.spelling.toList ≠ [] ∧
    ∀ c ∈ s.spelling.toList, isWord c = false ∧ isQuote c = false := by
  have h : s.spelling.toList ≠ [] ∧
      s.spelling.toList.all (fun c => !isWord c && !isQuote c) = true := by
    cases s <;> decide
  refine ⟨h.1, fun c hc => ?_⟩
  simpa using List.all_eq_true.mp h.2 c hc

theorem scanSymbol_eq {cs rest : List Char} {s : Symbol} (h : scanSymbol cs = some (s, rest)) :
    cs = s.spelling.toList ++ rest := by
  obtain ⟨_, _, s', h⟩ := List.findSome?_eq_some_iff.mp h
  obtain ⟨r, hr, he⟩ := Option.map_eq_some_iff.mp h.2.1
  cases he
  exact after?_eq_some_iff.mp hr

/-- The characters of an identifier. -/
def IdentWord (w : List Char) : Prop :=
  (∀ c ∈ w.head?, isIdentStart c = true) ∧ ∀ c ∈ w, isIdentRest c = true

/-- A token at the start of a text, class by class, and the text after it. -/
inductive Scanned : List Char → Token → List Char → Prop where
  | word {w rest : List Char} : w ≠ [] → IdentWord w → (∀ c ∈ rest.head?, isIdentRest c = false) →
    Scanned (w ++ rest) (.ofWord w) rest
  | string {q : Char} {a rest : List Char} : isQuote q = true → Quoted q a →
    Scanned (q :: a ++ rest) (.string (String.ofList (q :: a))) rest
  | number {n rest : List Char} : n ≠ [] → (∀ c ∈ n, IsNumberChar c) →
    Scanned (n ++ rest) (.number (String.ofList n)) rest
  | symbol {s : Symbol} {rest : List Char} : Scanned (s.spelling.toList ++ rest) (.symbol s) rest

theorem scanned_of_scanToken {cs rest : List Char} {t : Token} (h : scanToken cs = some (t, rest)) :
    Scanned cs t rest := by
  rcases cs with _ | ⟨c, cs⟩
  · cases h
  · simp only [scanToken] at h
    split_ifs at h with hc hq
    · cases h
      have hcut : c :: cs = c :: cs.takeWhile isIdentRest ++ cs.dropWhile isIdentRest := by
        rw [List.cons_append, List.takeWhile_append_dropWhile]
      refine hcut ▸ .word (List.cons_ne_nil _ _) ⟨by simpa using hc, fun d hd => ?_⟩ fun d hd => ?_
      · rcases List.mem_cons.mp hd with rfl | hd
        · exact isIdentRest_of_isIdentStart hc
        · exact List.all_eq_true.mp List.all_takeWhile d hd
      · have := List.head?_dropWhile_not isIdentRest cs
        rw [Option.mem_def.mp hd] at this
        exact this
    · obtain ⟨⟨a, rest'⟩, hs, he⟩ := Option.map_eq_some_iff.mp h
      cases he
      obtain ⟨rfl, ha⟩ := quoted_of_scanQuoted hs
      exact .string (by simpa [isQuote] using hq) ha
    · split at h
      · rename_i n rest' hn
        cases h
        obtain ⟨he, hquote, hne⟩ := scanNumber_eq hn
        rw [he]
        exact .number hne hquote
      · obtain ⟨⟨s, rest'⟩, hs, he⟩ := Option.map_eq_some_iff.mp h
        cases he
        rw [scanSymbol_eq hs]
        exact .symbol

theorem Token.ofWord_eq_ident {w : List Char} {x : String} (h : Token.ofWord w = .ident x) :
    x = String.ofList w ∧ Reserved.ofSpelling? x = none := by
  simp only [Token.ofWord] at h
  split at h
  · cases h
  · cases h
    exact ⟨rfl, by assumption⟩

/-- The tokens of a text, with blanks before and after them. -/
inductive Lexed : List Char → List Lexeme → Prop where
  | nil {blanks : List Char} : (∀ c ∈ blanks, isTokenBlank c = true) → Lexed blanks []
  | cons {blanks cs rest : List Char} {t : Lexeme} {ts : List Lexeme} :
    (∀ c ∈ blanks, isTokenBlank c = true) → Scanned cs t.token rest → Lexed rest ts →
      Lexed (blanks ++ cs) (t :: ts)

theorem Scanned.length_lt {cs rest : List Char} {t : Token} (h : Scanned cs t rest) :
    rest.length < cs.length := by
  cases h with
  | word hw =>
    have := List.length_pos_of_ne_nil hw
    rw [List.length_append]
    omega
  | string =>
    rw [List.length_append, List.length_cons]
    omega
  | number hn =>
    have := List.length_pos_of_ne_nil hn
    rw [List.length_append]
    omega
  | @symbol s =>
    have := List.length_pos_of_ne_nil s.spelling_spec.1
    rw [List.length_append]
    omega

theorem lexed_of_lexFrom : ∀ {fuel pos : Nat} {cs : List Char} {ts : List Lexeme},
    cs.length < fuel → lexFrom fuel pos cs = .ok ts → Lexed cs ts
  | fuel + 1, pos, cs, ts, hlen, h => by
    simp only [lexFrom] at h
    have hcut := List.takeWhile_append_dropWhile (p := isTokenBlank) (l := cs)
    have hblank : ∀ c ∈ cs.takeWhile isTokenBlank, isTokenBlank c = true :=
      List.all_eq_true.mp List.all_takeWhile
    split at h
    · rename_i hd
      cases h
      rw [hd, List.append_nil] at hcut
      exact .nil (hcut ▸ hblank)
    · split at h
      · cases h
      · rename_i hs
        obtain ⟨ts', hts, h⟩ := bind_eq_ok_iff.mp h
        cases h
        have hscan := scanned_of_scanToken hs
        have hle := hscan.length_lt
        have := congrArg List.length hcut
        rw [List.length_append] at this
        exact hcut ▸ .cons hblank hscan (lexed_of_lexFrom (by omega) hts)

/-- A name is read up to where it cannot be continued. -/
theorem Scanned.ident {cs rest : List Char} {t : Token} {x : String} (h : Scanned cs t rest)
    (hx : t = .ident x) :
    cs = x.toList ++ rest ∧ x.toList ≠ [] ∧ IdentWord x.toList ∧ Reserved.ofSpelling? x = none ∧
      ∀ c ∈ rest.head?, isIdentRest c = false := by
  cases h with
  | word hw hchars hrest =>
    obtain ⟨rfl, hres⟩ := Token.ofWord_eq_ident hx
    rw [String.toList_ofList]
    exact ⟨rfl, hw, hchars, hres, hrest⟩
  | _ => cases hx

/-- What a token leaves when strings are blanked.  Only a number, or a word with no more of it
behind, can end in a word character. -/
theorem Scanned.masked {cs rest : List Char} {t : Token} (h : Scanned cs t rest) :
    ∃ m, m ≠ [] ∧ (∀ more, mask (cs ++ more) = m ++ mask (rest ++ more)) ∧
      (t.isNumber = true ∨ WordFreeEnd m ∨ ∀ c ∈ rest.head?, isIdentRest c = false) := by
  cases h with
  | @word w _ hw hchars hrest =>
    refine ⟨w, hw, fun more => ?_, .inr (.inr hrest)⟩
    rw [List.append_assoc, mask_append fun c hc => isQuote_of_isIdentRest (hchars.2 c hc)]
  | string hq ha =>
    refine ⟨[' '], by simp, fun more => ?_, .inr (.inl (by simp [WordFreeEnd]; decide))⟩
    rw [List.append_assoc, mask_string hq ha, List.singleton_append]
  | @number n _ hn hchars =>
    refine ⟨n, hn, fun more => ?_, .inl rfl⟩
    rw [List.append_assoc, mask_append fun c hc => (hchars c hc).1]
  | @symbol s =>
    refine ⟨s.spelling.toList, s.spelling_spec.1, fun more => ?_, .inr (.inl fun c hc => ?_)⟩
    · rw [List.append_assoc, mask_append fun c hc => (s.spelling_spec.2 c hc).2]
    · exact (s.spelling_spec.2 c (List.mem_of_mem_getLast? hc)).1

theorem Scanned.head {cs rest : List Char} {t : Token} (h : Scanned cs t rest) :
    ∀ c ∈ cs.head?, isIdentRest c = true ∨ isWord c = false := by
  intro c hc
  cases h with
  | word hw hchars =>
    rw [List.head?_append_of_ne_nil _ hw] at hc
    exact .inl (hchars.2 c (List.mem_of_mem_head? hc))
  | string hq =>
    cases hc
    simp only [isQuote, Bool.or_eq_true, decide_eq_true_eq] at hq
    rcases hq with rfl | rfl <;> decide
  | number hn hchars =>
    rw [List.head?_append_of_ne_nil _ hn] at hc
    exact (hchars c (List.mem_of_mem_head? hc)).2
  | @symbol s =>
    rw [List.head?_append_of_ne_nil _ s.spelling_spec.1] at hc
    exact .inr (s.spelling_spec.2 c (List.mem_of_mem_head? hc)).1

theorem isTokenBlank_spec {c : Char} (h : isTokenBlank c = true) :
    isWord c = false ∧ isQuote c = false ∧ isIdentRest c = false := by
  simp only [isTokenBlank, Bool.or_eq_true, decide_eq_true_eq] at h
  rcases h with ((rfl | rfl) | rfl) | rfl <;> decide

/-- A text that is read starts with a character of an identifier or with no word character. -/
theorem Lexed.head {cs : List Char} {ts : List Lexeme} (h : Lexed cs ts) :
    ∀ c ∈ cs.head?, isIdentRest c = true ∨ isWord c = false := by
  intro c hc
  cases h with
  | nil hb => exact .inr (isTokenBlank_spec (hb c (List.mem_of_mem_head? hc))).1
  | @cons blanks cs _ _ _ hb hs =>
    rcases blanks with _ | ⟨d, blanks⟩
    · exact hs.head c hc
    · cases hc
      exact .inr (isTokenBlank_spec (hb c (by simp))).1

/-- Whether a name can be found in a text: it has no dollar sign and is not kept for internal
use. -/
def isTracked (name : List Char) : Bool :=
  '$' ∉ name && !startsWith internalStart name

theorem isWord_of_isTracked {w : List Char} (hw : IdentWord w) (ht : isTracked w = true) :
    ∀ c ∈ w, isWord c = true := by
  intro c hc
  simp only [isTracked, Bool.and_eq_true, decide_eq_true_eq] at ht
  have hrest := hw.2 c hc
  simp only [isIdentRest, Bool.or_eq_true, decide_eq_true_eq] at hrest
  rcases hrest with hrest | rfl
  · exact isWord_of_isNameRest hrest
  · exact absurd hc ht.1

/-- A name in a text that is read is a word by itself when strings are blanked.  If it comes first
then the text starts with it. -/
theorem Lexed.word {cs : List Char} {ts : List Lexeme} (h : Lexed cs ts) (hts : ts.IsChain Apart)
    {t : Lexeme} (ht : t ∈ ts) {x : String} (hx : t.token = .ident x)
    {more : List Char} (hmore : WordFreeStart more) :
    ∃ a b, mask (cs ++ more) = a ++ x.toList ++ b ∧ WordFreeEnd a ∧ WordFreeStart b ∧
      (a = [] → (∃ c ∈ cs.head?, isIdentRest c = true) ∧ ∃ t ∈ ts.head?, t.token.isIdent = true) := by
  induction h with
  | nil => cases ht
  | @cons blanks cs rest u ts hb hs hrest ih =>
    rw [List.append_assoc, mask_append fun c hc => (isTokenBlank_spec (hb c hc)).2.1]
    rcases List.mem_cons.mp ht with rfl | ht
    · obtain ⟨rfl, hne, hchars, -, hnext⟩ := hs.ident hx
      have hquote : ∀ c ∈ x.toList, isQuote c = false := fun c hc =>
        isQuote_of_isIdentRest (hchars.2 c hc)
      refine ⟨blanks, mask (rest ++ more), ?_, ?_, wordFreeStart_mask ?_, ?_⟩
      · rw [List.append_assoc, mask_append hquote, List.append_assoc]
      · exact fun c hc => (isTokenBlank_spec (hb c (List.mem_of_mem_getLast? hc))).1
      · rcases rest with _ | ⟨c, rest⟩
        · exact hmore
        · intro d hd
          cases hd
          exact (hrest.head c (by simp)).resolve_left (by simp [hnext c (by simp)])
      · rintro rfl
        rw [List.nil_append, List.head?_append_of_ne_nil _ hne]
        refine ⟨⟨x.toList.head hne, List.head_mem_head? hne, hchars.2 _ (List.head_mem hne)⟩, t, rfl, ?_⟩
        rw [hx]
        rfl
    · obtain ⟨m, hm, hmask, hend⟩ := hs.masked
      rw [hmask]
      obtain ⟨a, b, he, ha, hbstart, hfirst⟩ := ih hts.tail ht
      refine ⟨blanks ++ m ++ a, b, by rw [he]; simp, ?_, hbstart, by simp [hm]⟩
      rcases a with _ | ⟨c, a⟩
      · obtain ⟨⟨c, hc, hcrest⟩, v, hv, hvident⟩ := hfirst rfl
        have happart := (List.isChain_cons.mp hts).1 v hv
        have hm' : WordFreeEnd m := by
          rcases hend with hn | hm' | hnext
          · rcases happart with h | h
            · rw [hn] at h
              cases h
            · rw [hvident] at h
              cases h
          · exact hm'
          · rw [hnext c hc] at hcrest
            cases hcrest
        rw [List.append_nil]
        intro d hd
        rw [List.getLast?_append_of_ne_nil _ hm] at hd
        exact hm' d hd
      · intro d hd
        rw [List.getLast?_append_of_ne_nil _ (List.cons_ne_nil c a)] at hd
        exact ha d hd

/-! ## Texts as they were written -/

/-- A character that is cut off the ends of a text before it is read: neither part of a word nor a
quote. -/
def IsEdge (c : Char) : Prop :=
  isWord c = false ∧ isQuote c = false

instance (c : Char) : Decidable (IsEdge c) :=
  inferInstanceAs (Decidable (_ ∧ _))

theorem isEdge_of_isBlank {c : Char} (h : isBlank c = true) : IsEdge c := by
  have table : ∀ r ∈ blankRanges, ∀ n ∈ List.range' r.1 (r.2 + 1 - r.1), IsEdge (Char.ofNat n) := by
    decide +kernel
  obtain ⟨r, hr, hc⟩ := List.any_eq_true.mp h
  simp only [Bool.and_eq_true, decide_eq_true_eq] at hc
  have := table r hr c.toNat (List.mem_range'_1.mpr ⟨hc.1, by omega⟩)
  rwa [Char.ofNat_toNat] at this

theorem isBlank_of_isIdentRest {c : Char} (h : isIdentRest c = true) : isBlank c = false := by
  rw [Bool.eq_false_iff]
  intro hb
  have hword := (isEdge_of_isBlank hb).1
  simp only [isIdentRest, Bool.or_eq_true, decide_eq_true_eq] at h
  rcases h with h | rfl
  · rw [isWord_of_isNameRest h] at hword
    cases hword
  · revert hb
    decide

/-- A text is what is inside some edges. -/
def Inside (cs inner : List Char) : Prop :=
  ∃ a b, cs = a ++ inner ++ b ∧ (∀ c ∈ a, IsEdge c) ∧ ∀ c ∈ b, IsEdge c

theorem Inside.trans {cs inner core : List Char} (h : Inside cs inner) (h' : Inside inner core) :
    Inside cs core := by
  obtain ⟨a, b, rfl, ha, hb⟩ := h
  obtain ⟨a', b', rfl, ha', hb'⟩ := h'
  refine ⟨a ++ a', b' ++ b, by simp, fun c hc => ?_, fun c hc => ?_⟩
  · exact (List.mem_append.mp hc).elim (ha c) (ha' c)
  · exact (List.mem_append.mp hc).elim (hb' c) (hb c)

theorem inside_trim (cs : List Char) : Inside cs (trim cs) := by
  refine ⟨cs.takeWhile isBlank, ((cs.dropWhile isBlank).reverse.takeWhile isBlank).reverse, ?_,
    fun c hc => ?_, fun c hc => ?_⟩
  · rw [trim, List.append_assoc, ← List.reverse_append, List.takeWhile_append_dropWhile,
      List.reverse_reverse, List.takeWhile_append_dropWhile]
  · exact isEdge_of_isBlank (List.all_eq_true.mp List.all_takeWhile c hc)
  · exact isEdge_of_isBlank (List.all_eq_true.mp List.all_takeWhile c (List.mem_reverse.mp hc))

theorem inside_unwrapBraces (cs : List Char) : Inside cs (unwrapBraces cs) := by
  unfold unwrapBraces
  split
  · rename_i inner
    split_ifs with h
    · refine ⟨['\x7b'], ['\x7d'], ?_, List.forall_mem_singleton.mpr (by decide),
        List.forall_mem_singleton.mpr (by decide)⟩
      rw [List.append_assoc, List.dropLast_append_getLast? _ h, List.singleton_append]
    · exact ⟨[], [], by simp, by simp, by simp⟩
  · exact ⟨[], [], by simp, by simp, by simp⟩

theorem isBlank_lineBlank (c : Char) : isBlank (lineBlank c) = isBlank c := by
  unfold lineBlank
  split_ifs with h
  · simp only [Bool.or_eq_true, decide_eq_true_eq] at h
    rcases h with rfl | rfl <;> decide
  · rfl

theorem trim_map_lineBlank (cs : List Char) : trim (cs.map lineBlank) = (trim cs).map lineBlank := by
  have h : isBlank ∘ lineBlank = isBlank := funext isBlank_lineBlank
  simp only [trim, List.dropWhile_map, h, ← List.map_reverse]

/-- What is read of a text is what is inside its edges, in one line. -/
theorem exists_inside_normalize (source : List Char) :
    ∃ inner, Inside source inner ∧ normalize source = inner.map lineBlank := by
  refine ⟨trim (unwrapBraces (trim source)), ?_, ?_⟩
  · exact ((inside_trim _).trans (inside_unwrapBraces _)).trans (inside_trim _)
  · rw [← trim_map_lineBlank]
    rfl

theorem wordFreeEnd_map_lineBlank {cs : List Char} :
    WordFreeEnd (cs.map lineBlank) ↔ WordFreeEnd cs := by
  simp [WordFreeEnd]

theorem wordFreeStart_map_lineBlank {cs : List Char} :
    WordFreeStart (cs.map lineBlank) ↔ WordFreeStart cs := by
  simp [WordFreeStart]

/-- Words of a text in one line are words of the text. -/
theorem eq_of_map_lineBlank {w v : List Char} (hv : ∀ c ∈ v, isWord c = true)
    (h : w.map lineBlank = v) : w = v := by
  have hsame : ∀ c ∈ w, lineBlank c = c := fun c hc => by
    have hc' := hv _ (h ▸ List.mem_map_of_mem hc)
    unfold lineBlank at hc' ⊢
    split_ifs at hc' ⊢
    · cases hc'
    · rfl
  rw [← h, List.map_congr_left hsame, List.map_id']

/-- The names of the tokens of what is read of a text are words of the text. -/
theorem mem_wordRuns_mask {source : List Char} (hne : ¬ HasEscapedBreak source) {ts : List Lexeme}
    (h : Lexed (normalize source) ts) (hts : ts.IsChain Apart) {t : Lexeme} (ht : t ∈ ts)
    {x : String} (hx : t.token = .ident x) (hword : ∀ c ∈ x.toList, isWord c = true)
    (hx0 : x.toList ≠ []) : x.toList ∈ wordRuns (mask source) := by
  obtain ⟨inner, ⟨a₀, b₀, rfl, ha₀, hb₀⟩, hnorm⟩ := exists_inside_normalize source
  rw [hnorm] at h
  have hb : WordFreeStart b₀ := fun c hc => (hb₀ c (List.mem_of_mem_head? hc)).1
  obtain ⟨a, b, he, ha, hb, -⟩ := h.word hts ht hx (wordFreeStart_map_lineBlank.mpr hb)
  rw [← List.map_append, mask_map_lineBlank] at he
  · obtain ⟨ax, b', he', hax, rfl⟩ := List.map_eq_append_iff.mp he
    obtain ⟨a', x', rfl, rfl, hx'⟩ := List.map_eq_append_iff.mp hax
    rw [eq_of_map_lineBlank hword hx'] at he'
    rw [List.append_assoc, mask_append fun c hc => (ha₀ c hc).2, he', ← List.append_assoc,
      ← List.append_assoc]
    refine mem_wordRuns hx0 hword ?_ (wordFreeStart_map_lineBlank.mp hb)
    intro c hc
    rw [List.getLast?_append, Option.mem_def, Option.or_eq_some_iff] at hc
    rcases hc with hc | ⟨-, hc⟩
    · exact wordFreeEnd_map_lineBlank.mp ha c hc
    · exact (ha₀ c (List.mem_of_mem_getLast? hc)).1
  · exact fun h => hne (h.trans (by rw [List.append_assoc]; exact (List.suffix_append _ _).isInfix))

theorem isTracked_of_mem_expressionVars {source : List Char} {x : String}
    (h : x ∈ expressionVars source) : isTracked x.toList = true := by
  rw [expressionVars, mem_distinct] at h
  obtain ⟨w, hw, rfl⟩ := List.mem_map.mp (List.mem_filter.mp h).1
  have hw := (List.mem_filter.mp hw).2
  simp only [Bool.and_eq_true, Bool.not_eq_true'] at hw
  rw [String.toList_ofList, isTracked, hw.2, Bool.not_false, Bool.and_true, decide_eq_true_eq]
  intro hd
  rcases w with _ | ⟨c, w⟩
  · cases hd
  · simp only [isPlainName, Bool.and_eq_true, List.all_eq_true] at hw
    rcases List.mem_cons.mp hd with rfl | hd
    · exact absurd hw.1.1 (by decide)
    · exact absurd (hw.1.2 _ hd) (by decide)

theorem isPlainName_of_isTracked {w : List Char} (hw : w ≠ []) (hchars : IdentWord w)
    (ht : isTracked w = true) : isPlainName w = true := by
  rcases w with _ | ⟨c, w⟩
  · exact absurd rfl hw
  · simp only [isTracked, Bool.and_eq_true, decide_eq_true_eq, List.mem_cons, not_or] at ht
    have hstart := hchars.1 c rfl
    simp only [isIdentStart, Bool.or_eq_true, decide_eq_true_eq] at hstart
    simp only [isPlainName, Bool.and_eq_true, List.all_eq_true]
    refine ⟨hstart.resolve_right (Ne.symm ht.1.1), fun d hd => ?_⟩
    have hrest := hchars.2 d (List.mem_cons_of_mem c hd)
    simp only [isIdentRest, Bool.or_eq_true, decide_eq_true_eq] at hrest
    exact hrest.resolve_right fun h => ht.1.2 (h ▸ hd)

theorem Lexed.scanned {cs : List Char} {ts : List Lexeme} (h : Lexed cs ts) {t : Lexeme}
    (ht : t ∈ ts) : ∃ cs rest, Scanned cs t.token rest := by
  induction h with
  | nil => cases ht
  | cons _ hs _ ih =>
    rcases List.mem_cons.mp ht with rfl | ht
    · exact ⟨_, _, hs⟩
    · exact ih ht

/-- A name among the tokens is found if it is a word of the text that is not passed over. -/
theorem Lexed.mem_expressionVars {cs source : List Char} {ts : List Lexeme} (h : Lexed cs ts)
    {t : Lexeme} (ht : t ∈ ts) {x : String} (hx : t.token = .ident x)
    (htracked : isTracked x.toList = true)
    (hword : (∀ c ∈ x.toList, isWord c = true) → x.toList ≠ [] →
      x.toList ∈ wordRuns (mask source)) :
    x ∈ expressionVars source := by
  obtain ⟨_, _, hs⟩ := h.scanned ht
  obtain ⟨-, hx0, hchars, hres, -⟩ := hs.ident hx
  have hrun := hword (isWord_of_isTracked hchars htracked) hx0
  rw [expressionVars, mem_distinct]
  refine List.mem_filter.mpr ⟨List.mem_map.mpr ⟨x.toList, List.mem_filter.mpr ⟨hrun, ?_⟩, ?_⟩, ?_⟩
  · rw [isPlainName_of_isTracked hx0 hchars htracked]
    simp only [isTracked, Bool.and_eq_true] at htracked
    exact htracked.2
  · exact String.ofList_toList
  · rw [hres]
    rfl

/-- Of the names that a text looks up, those are found in it that are not passed over. -/
theorem mem_expressionVars_iff {source : List Char} (hne : ¬ HasEscapedBreak source) {x : String}
    (hx : x ∈ textLookups (normalize source)) :
    x ∈ expressionVars source ↔ isTracked x.toList = true := by
  refine ⟨isTracked_of_mem_expressionVars, fun htracked => ?_⟩
  unfold textLookups at hx
  split at hx
  · rename_i e he
    obtain ⟨ts, hts, hp⟩ := bind_eq_ok_iff.mp he
    obtain ⟨hapart, hnames⟩ := parseTokens_takes hp
    obtain ⟨t, ht, hident⟩ := hnames x hx
    have hlexed := lexed_of_lexFrom (Nat.lt_succ_self _) hts
    exact hlexed.mem_expressionVars ht hident htracked
      (mem_wordRuns_mask hne hlexed hapart ht hident)
  · cases hx

end LiveMarkup
