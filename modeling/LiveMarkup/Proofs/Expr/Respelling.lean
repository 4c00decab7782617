import LiveMarkup.Proofs.Expr.Variables

/-!
# Tokens of a text whose blanks change

No token but a string holds a blank, and no token that starts before a closing brace goes on past it.
So a text may have its blanks changed for others, and blanks or a closing brace added behind it, and
the token at its start stays what it is (`Respells.scanToken`).
-/

namespace LiveMarkup

open Text

/-- A character that ends the token before it: a blank or a closing brace. -/
def isLoose (c : Char) : Bool :=
  isBlank c || c = '}'

theorem isBlank_of_isTokenBlank {c : Char} (h : isTokenBlank c = true) : isBlank c = true := by
  simp only [isTokenBlank, Bool.or_eq_true, decide_eq_true_eq] at h
  rcases h with ((rfl | rfl) | rfl) | rfl <;> decide

theorem isLoose_of_isTokenBlank {c : Char} (h : isTokenBlank c = true) : isLoose c = true := by
  rw [isLoose, isBlank_of_isTokenBlank h, Bool.true_or]

/-- A class of characters in which no token ends. -/
def Tight (p : Char → Bool) : Prop :=
  ∀ c, isLoose c = true → p c = false

theorem tight_isIdentRest : Tight isIdentRest := by
  intro c hc
  rw [isLoose, Bool.or_eq_true, decide_eq_true_eq] at hc
  rcases hc with hc | rfl
  · by_contra hrest
    rw [isBlank_of_isIdentRest (by simpa using hrest)] at hc
    cases hc
  · decide

theorem tight_isDigit : Tight Char.isDigit := by
  intro c hc
  by_contra hdigit
  have hrest := tight_isIdentRest c hc
  simp [isIdentRest, isNameRest, Char.isAlphanum, hdigit] at hrest

theorem tight_isQuote : Tight isQuote := by
  intro c hc
  by_contra hquote
  simp only [isQuote, Bool.or_eq_true, decide_eq_true_eq, Bool.not_eq_false] at hquote
  rcases hquote with rfl | rfl <;> revert hc <;> decide

theorem Quoted.getLast?_eq {q : Char} {a : List Char} (h : Quoted q a) : a.getLast? = some q := by
  induction h with
  | close => rfl
  | escape _ ha ih => simp [List.getLast?_cons, ih]
  | char _ _ ha ih => simp [List.getLast?_cons, ih]

/-- A symbol goes on only with characters that end no token. -/
theorem Symbol.isLoose_of_mem_tail (s : Symbol) :
    ∀ c ∈ s.spelling.toList.tail, isLoose c = false := by
  have h : s.spelling.toList.tail.all (fun c => !isLoose c) = true := by cases s <;> decide
  simpa using List.all_eq_true.mp h

/-- No token starts with a blank. -/
theorem scanToken_blank {c : Char} (hc : isBlank c = true) (cs : List Char) :
    scanToken (c :: cs) = none := by
  have hloose : isLoose c = true := by rw [isLoose, hc, Bool.true_or]
  have hident : isIdentStart c = false := by
    by_contra h
    have := tight_isIdentRest c hloose
    rw [isIdentRest_of_isIdentStart (by simpa using h)] at this
    cases this
  have hquote : (decide (c = '"') || decide (c = '\'')) = false := tight_isQuote c hloose
  have hdigit := tight_isDigit c hloose
  have hdot : c ≠ '.' := by
    rintro rfl
    revert hc
    decide
  have hnumber : scanNumber (c :: cs) = none := by
    simp [scanNumber, hdigit, scanFraction, hdot]
  have hsymbol : scanSymbol (c :: cs) = none := by
    rw [Option.eq_none_iff_forall_not_mem]
    rintro ⟨s, rest⟩ hs
    have heq := scanSymbol_eq hs
    have hstart : s.spelling.toList.all (fun c => !isBlank c) = true := by cases s <;> decide
    obtain ⟨d, w, hd⟩ := List.exists_cons_of_ne_nil s.spelling_spec.1
    rw [hd] at heq hstart
    obtain ⟨rfl, -⟩ := List.cons.inj heq
    simp [hc] at hstart
  simp [scanToken, hident, hquote, hnumber, hsymbol]

theorem not_isBlank_of_scanToken {c : Char} {cs : List Char} {r : Token × List Char}
    (h : scanToken (c :: cs) = some r) : isBlank c = false := by
  by_contra hc
  rw [scanToken_blank (by simpa using hc)] at h
  cases h

theorem not_isTokenBlank_of_scanToken {c : Char} {cs : List Char} {r : Token × List Char}
    (h : scanToken (c :: cs) = some r) : isTokenBlank c = false := by
  by_contra hc
  rw [scanToken_blank (isBlank_of_isTokenBlank (by simpa using hc))] at h
  cases h

/-- Blanks are changed for blanks, and what is added behind a text starts with a character that ends
a token. -/
structure Respells (f : Char → Char) (tail : List Char) : Prop where
  keeps : ∀ c, isTokenBlank c = false → f c = c
  blank : ∀ c, isTokenBlank c = true → isTokenBlank (f c) = true
  loose : ∀ c ∈ tail.head?, isLoose c = true

namespace Respells

variable {f : Char → Char} {tail cs : List Char} {p : Char → Bool}

/-- What becomes of the text that a scanner leaves. -/
def respell (f : Char → Char) (tail cs : List Char) : List Char :=
  cs.map f ++ tail

@[simp] theorem respell_nil : respell f tail [] = tail :=
  rfl

@[simp] theorem respell_cons (c : Char) : respell f tail (c :: cs) = f c :: respell f tail cs :=
  rfl

variable (h : Respells f tail)
include h

theorem eq_of_tight (hp : Tight p) {c : Char} (hc : p c = true) : f c = c := by
  refine h.keeps c (Bool.eq_false_iff.mpr fun hblank => ?_)
  rw [hp c (isLoose_of_isTokenBlank hblank)] at hc
  cases hc

theorem tight_eq (hp : Tight p) (c : Char) : p (f c) = p c := by
  cases hc : isTokenBlank c with
  | false => rw [h.keeps c hc]
  | true =>
    rw [hp c (isLoose_of_isTokenBlank hc), hp (f c) (isLoose_of_isTokenBlank (h.blank c hc))]

theorem eq_iff {c d : Char} (hd : isLoose d = false) : f c = d ↔ c = d := by
  have htight : Tight fun c => decide (c = d) := by
    rintro c hc
    rw [decide_eq_false_iff_not]
    rintro rfl
    rw [hc] at hd
    cases hd
  simpa using h.tight_eq htight c

theorem takeWhile_respell (hp : Tight p) : (respell f tail cs).takeWhile p = cs.takeWhile p := by
  induction cs with
  | nil =>
    rcases tail with _ | ⟨c, tail⟩
    · rfl
    · rw [respell_nil, List.takeWhile_cons_of_neg (by simp [hp c (h.loose c rfl)])]
      rfl
  | cons c cs ih =>
    rw [respell_cons, List.takeWhile_cons, List.takeWhile_cons, h.tight_eq hp, ih]
    split
    · next hc => rw [h.eq_of_tight hp hc]
    · rfl

theorem dropWhile_respell (hp : Tight p) :
    (respell f tail cs).dropWhile p = respell f tail (cs.dropWhile p) := by
  induction cs with
  | nil =>
    rcases tail with _ | ⟨c, tail⟩
    · rfl
    · exact List.dropWhile_cons_of_neg (by simp [hp c (h.loose c rfl)])
  | cons c cs ih =>
    rw [respell_cons, List.dropWhile_cons, List.dropWhile_cons, h.tight_eq hp, ih]
    split <;> rfl

/-! ## Numbers -/

theorem head_ne {d : Char} (hd : isLoose d = false) (rest : List Char) : tail ≠ d :: rest := by
  rintro rfl
  rw [h.loose d rfl] at hd
  cases hd

theorem scanFraction_respell :
    scanFraction (respell f tail cs) = ((scanFraction cs).1, respell f tail (scanFraction cs).2) := by
  have hnone : ∀ cs : List Char, (∀ rest, cs ≠ '.' :: rest) → scanFraction cs = ([], cs) := by
    intro cs hcs
    rw [scanFraction]
    exact fun rest => hcs rest
  rcases cs with _ | ⟨c, cs⟩
  · rw [respell_nil, hnone tail (h.head_ne (by decide))]
    rfl
  · by_cases hc : c = '.'
    · subst hc
      rw [respell_cons, (h.eq_iff (by decide)).mpr rfl]
      simp only [scanFraction, h.takeWhile_respell tight_isDigit, h.dropWhile_respell tight_isDigit]
      split
      · rw [respell_cons, (h.eq_iff (by decide)).mpr rfl]
      · rfl
    · have hfc : f c ≠ '.' := mt (h.eq_iff (by decide)).mp hc
      rw [respell_cons, hnone _ fun rest heq => hc (List.cons.inj heq).1,
        hnone _ fun rest heq => hfc (List.cons.inj heq).1, respell_cons]

theorem scanSign_respell :
    scanSign (respell f tail cs) = ((scanSign cs).1, respell f tail (scanSign cs).2) := by
  have hnone : ∀ cs : List Char, (∀ rest, cs ≠ '+' :: rest) → (∀ rest, cs ≠ '-' :: rest) →
      scanSign cs = ([], cs) := by
    intro cs hplus hminus
    rw [scanSign]
    · exact fun rest => hplus rest
    · exact fun rest => hminus rest
  rcases cs with _ | ⟨c, cs⟩
  · rw [respell_nil, hnone tail (h.head_ne (by decide)) (h.head_ne (by decide))]
    rfl
  · by_cases hplus : c = '+'
    · subst hplus
      rw [respell_cons, (h.eq_iff (by decide)).mpr rfl]
      rfl
    · by_cases hminus : c = '-'
      · subst hminus
        rw [respell_cons, (h.eq_iff (by decide)).mpr rfl]
        rfl
      · have hp : f c ≠ '+' := mt (h.eq_iff (by decide)).mp hplus
        have hm : f c ≠ '-' := mt (h.eq_iff (by decide)).mp hminus
        rw [respell_cons, hnone (c :: cs) (fun rest heq => hplus (List.cons.inj heq).1)
          (fun rest heq => hminus (List.cons.inj heq).1),
          hnone _ (fun rest heq => hp (List.cons.inj heq).1)
          (fun rest heq => hm (List.cons.inj heq).1), respell_cons]

theorem scanExponent_respell :
    scanExponent (respell f tail cs) = ((scanExponent cs).1, respell f tail (scanExponent cs).2) := by
  have hnone : ∀ (c : Char) (cs : List Char), c ≠ 'e' → c ≠ 'E' →
      scanExponent (c :: cs) = ([], c :: cs) := by
    intro c cs he hE
    simp [scanExponent, he, hE]
  rcases cs with _ | ⟨c, cs⟩
  · rcases tail with _ | ⟨c, tail⟩
    · rfl
    · have hloose := h.loose c rfl
      refine hnone c tail ?_ ?_ <;> (rintro rfl; revert hloose; decide)
  · by_cases hc : c = 'e' ∨ c = 'E'
    · have hfc : f c = c := h.keeps c (by rcases hc with rfl | rfl <;> decide)
      have hcond : (decide (c = 'e') || decide (c = 'E')) = true := by simpa using hc
      rw [respell_cons, hfc]
      simp only [scanExponent, if_pos hcond, h.scanSign_respell, h.takeWhile_respell tight_isDigit,
        h.dropWhile_respell tight_isDigit]
      split
      · rw [respell_cons, hfc]
      · rfl
    · rw [not_or] at hc
      rw [respell_cons, hnone c cs hc.1 hc.2, hnone _ _ (mt (h.eq_iff (by decide)).mp hc.1)
        (mt (h.eq_iff (by decide)).mp hc.2), respell_cons]

theorem scanNumber_respell :
    scanNumber (respell f tail cs) = (scanNumber cs).map fun (n, rest) => (n, respell f tail rest) := by
  simp only [scanNumber, h.takeWhile_respell tight_isDigit, h.dropWhile_respell tight_isDigit,
    h.scanFraction_respell, h.scanExponent_respell]
  split <;> rfl

/-! ## Symbols -/

theorem after?_respell {w : List Char} (hw : ∀ d ∈ w, isLoose d = false) :
    after? w (respell f tail cs) = (after? w cs).map (respell f tail) := by
  induction w generalizing cs with
  | nil => simp [after?]
  | cons d w ih =>
    rw [List.forall_mem_cons] at hw
    rcases cs with _ | ⟨c, cs⟩
    · rcases tail with _ | ⟨c, tail⟩
      · rfl
      · have hne : d ≠ c := fun hd => h.head_ne hw.1 tail (by rw [hd])
        simp [after?, hne]
    · rw [respell_cons, after?, after?, ih hw.2]
      simp only [eq_comm (a := d), h.eq_iff hw.1]
      split <;> rfl

theorem scanSymbol_respell {c : Char} (hc : isTokenBlank c = false) :
    scanSymbol (respell f tail (c :: cs)) =
      (scanSymbol (c :: cs)).map fun (s, rest) => (s, respell f tail rest) := by
  have hafter : ∀ s : Symbol, after? s.spelling.toList (respell f tail (c :: cs)) =
      (after? s.spelling.toList (c :: cs)).map (respell f tail) := by
    intro s
    obtain ⟨d, w, hs⟩ := List.exists_cons_of_ne_nil s.spelling_spec.1
    have hw : ∀ e ∈ w, isLoose e = false := by simpa [hs] using s.isLoose_of_mem_tail
    rw [hs]
    rw [respell_cons, h.keeps c hc, after?, after?, h.after?_respell hw]
    split <;> rfl
  unfold scanSymbol
  induction Symbol.all with
  | nil => rfl
  | cons s all ih =>
    rw [List.findSome?_cons, List.findSome?_cons, hafter]
    rcases after? s.spelling.toList (c :: cs) with _ | rest
    · exact ih
    · rfl

/-! ## The token at the start -/

omit h in
theorem scanString_respell {q : Char} (hq : isQuote q = true) {a rest : List Char}
    (ha : a.map f = a) (hscan : scanQuoted q cs = some (a, rest)) :
    scanQuoted q (respell f tail cs) = some (a, respell f tail rest) := by
  obtain ⟨rfl, hquoted⟩ := quoted_of_scanQuoted hscan
  rw [respell, List.map_append, ha, List.append_assoc]
  exact scanQuoted_of_quoted (ne_backslash_of_isQuote hq) hquoted _

/-- The token at the start of a text stays, unless it is a string that is changed. -/
theorem scanToken_respell {t : Token} {rest : List Char} (hscan : scanToken cs = some (t, rest))
    (hkeep : ∀ spelling, t = .string spelling → spelling.toList.map f = spelling.toList) :
    scanToken (respell f tail cs) = some (t, respell f tail rest) := by
  rcases cs with _ | ⟨c, cs⟩
  · cases hscan
  have hc := not_isTokenBlank_of_scanToken hscan
  rw [respell_cons, h.keeps c hc]
  simp only [scanToken] at hscan ⊢
  split_ifs at hscan ⊢ with hident hquote
  · cases hscan
    rw [h.takeWhile_respell tight_isIdentRest, h.dropWhile_respell tight_isIdentRest]
  · obtain ⟨⟨a, r⟩, hq, heq⟩ := Option.map_eq_some_iff.mp hscan
    cases heq
    have ha : a.map f = a := by
      have := hkeep _ rfl
      rw [String.toList_ofList, List.map_cons] at this
      exact (List.cons.inj this).2
    rw [scanString_respell (by simpa [isQuote] using hquote) ha hq]
    rfl
  · have hnumber := @scanNumber_respell f tail (c :: cs) h
    have hsymbol := @scanSymbol_respell f tail cs h c hc
    rw [respell_cons, h.keeps c hc] at hnumber hsymbol
    rw [hnumber, hsymbol]
    rcases hn : scanNumber (c :: cs) with _ | ⟨n, r⟩ <;> rw [hn] at hscan
    · obtain ⟨⟨s, r⟩, hs, heq⟩ := Option.map_eq_some_iff.mp hscan
      cases heq
      simp only [hs, Option.map_none, Option.map_some]
    · cases hscan
      rfl

end Respells

/-- Nothing but blanks or a closing brace is added. -/
theorem respells_id {c : Char} (hc : isLoose c = true) : Respells id [c] :=
  ⟨fun _ _ => rfl, fun _ => id, by simpa using hc⟩

theorem respell_id (tail cs : List Char) : Respells.respell id tail cs = cs ++ tail := by
  rw [Respells.respell, List.map_id]

/-- A token does not reach a blank or a closing brace that is added behind the text. -/
theorem scanToken_of_concat {c d : Char} (hc : isLoose c = true) {cs r : List Char} {t : Token}
    (h : scanToken (d :: (cs ++ [c])) = some (t, r)) :
    ∃ rest, r = rest ++ [c] ∧ scanToken (d :: cs) = some (t, rest) := by
  have hadd := respells_id hc
  have hd : isTokenBlank d = false := not_isTokenBlank_of_scanToken h
  simp only [scanToken] at h ⊢
  split_ifs at h ⊢ with hident hquote
  · rw [← respell_id, hadd.takeWhile_respell tight_isIdentRest,
      hadd.dropWhile_respell tight_isIdentRest, respell_id] at h
    obtain ⟨rfl, rfl⟩ := Prod.mk.inj (Option.some.inj h)
    exact ⟨_, rfl, rfl⟩
  · obtain ⟨⟨a, r⟩, hq, heq⟩ := Option.map_eq_some_iff.mp h
    obtain ⟨rfl, rfl⟩ := Prod.mk.inj heq
    have hisQuote : isQuote d = true := by simpa [isQuote] using hquote
    obtain ⟨hcs, hquoted⟩ := quoted_of_scanQuoted hq
    rcases List.eq_nil_or_concat r with rfl | ⟨rest, e, rfl⟩
    · have hlast := hquoted.getLast?_eq
      rw [List.append_nil] at hcs
      rw [← hcs, List.getLast?_concat] at hlast
      obtain rfl := Option.some.inj hlast
      rw [tight_isQuote c hc] at hisQuote
      cases hisQuote
    · rw [List.concat_eq_append, ← List.append_assoc] at hcs
      obtain ⟨rfl, he⟩ := List.append_inj' hcs rfl
      obtain rfl := List.singleton_inj.mp he
      refine ⟨rest, List.concat_eq_append, ?_⟩
      rw [scanQuoted_of_quoted (ne_backslash_of_isQuote hisQuote) hquoted]
      rfl
  · have hnumber := @Respells.scanNumber_respell id [c] (d :: cs) hadd
    have hsymbol := @Respells.scanSymbol_respell id [c] cs hadd d hd
    simp only [respell_id, List.cons_append] at hnumber hsymbol
    rw [hnumber, hsymbol] at h
    rcases hn : scanNumber (d :: cs) with _ | ⟨n, r⟩ <;> rw [hn] at h
    · rcases hs : scanSymbol (d :: cs) with _ | ⟨s, r⟩ <;> rw [hs] at h
      · cases h
      · obtain ⟨rfl, rfl⟩ := Prod.mk.inj (Option.some.inj h)
        exact ⟨_, rfl, rfl⟩
    · obtain ⟨rfl, rfl⟩ := Prod.mk.inj (Option.some.inj h)
      exact ⟨_, rfl, rfl⟩

end LiveMarkup
