import LiveMarkup.Proofs.Expr.Renamed

/-!
# Where tokens end

How far a token reaches is decided by the next character after it, or by the next two after a
number.  So a token that was read in one text is read in any other where it stands before something
that cannot continue it (`readable_of_scanToken`).
-/

namespace LiveMarkup

open Text

variable {cs rest : List Char} {c : Char} {t : Token} {s : Symbol} {w : List Char}

/-! ## Numbers -/

/-- Digits, at least one. -/
def IsDigits (ds : List Char) : Prop :=
  ds ≠ [] ∧ ∀ c ∈ ds, c.isDigit = true

/-- The fraction of a number, or nothing. -/
def IsFraction (w : List Char) : Prop :=
  w = [] ∨ ∃ ds, w = '.' :: ds ∧ IsDigits ds

/-- The exponent of a number, or nothing. -/
def IsExponent (w : List Char) : Prop :=
  w = [] ∨ ∃ e sign ds, w = e :: (sign ++ ds) ∧ (e = 'e' ∨ e = 'E') ∧
    (sign = [] ∨ sign = ['+'] ∨ sign = ['-']) ∧ IsDigits ds

/-- The spelling of a number: digits, a fraction and an exponent, of which an exponent alone is
none. -/
def IsNumeral (w : List Char) : Prop :=
  ∃ whole fraction exponent, w = whole ++ (fraction ++ exponent) ∧
    (∀ c ∈ whole, c.isDigit = true) ∧ IsFraction fraction ∧ IsExponent exponent ∧
    (whole = [] → fraction ≠ [])

/-- A text that does not continue a number before it. -/
def NumberEnds : List Char → Prop
  | [] => True
  | c :: cs => c.isDigit = false ∧ c ≠ 'e' ∧ c ≠ 'E' ∧
    (c = '.' → ∀ d ∈ cs.head?, d.isDigit = false)

theorem IsDigits.scan {ds : List Char} (h : IsDigits ds)
    (hrest : ∀ c ∈ rest.head?, c.isDigit = false) :
    (ds ++ rest).takeWhile Char.isDigit = ds ∧ (ds ++ rest).dropWhile Char.isDigit = rest :=
  takeWhile_append_cons h.2 hrest

theorem isDigits_takeWhile (h : cs.takeWhile Char.isDigit ≠ []) :
    IsDigits (cs.takeWhile Char.isDigit) :=
  ⟨h, fun _ hc => List.mem_takeWhile_imp hc⟩

theorem scanSign_spec (cs : List Char) :
    (scanSign cs).1 = [] ∨ (scanSign cs).1 = ['+'] ∨ (scanSign cs).1 = ['-'] := by
  unfold scanSign
  split <;> simp

theorem isExponent_scanExponent (cs : List Char) : IsExponent (scanExponent cs).1 := by
  rcases cs with _ | ⟨e, cs⟩
  · exact .inl rfl
  · unfold scanExponent
    simp only
    split_ifs with he
    · by_cases hdigits : (scanSign cs).2.takeWhile Char.isDigit = []
      · rw [hdigits]
        exact .inl rfl
      · split
        · exact .inl rfl
        · exact .inr ⟨e, _, _, rfl, by simpa using he, scanSign_spec cs, isDigits_takeWhile hdigits⟩
    · exact .inl rfl

theorem isFraction_scanFraction (cs : List Char) : IsFraction (scanFraction cs).1 := by
  unfold scanFraction
  split
  · rename_i ds
    by_cases hdigits : ds.takeWhile Char.isDigit = []
    · rw [hdigits]
      exact .inl rfl
    · split
      · exact .inl rfl
      · exact .inr ⟨_, rfl, isDigits_takeWhile hdigits⟩
  · exact .inl rfl

theorem isNumeral_of_scanNumber (h : scanNumber cs = some (w, rest)) : IsNumeral w := by
  unfold scanNumber at h
  simp only at h
  split_ifs at h with hne
  simp only [Option.some.injEq, Prod.mk.injEq] at h
  refine ⟨cs.takeWhile Char.isDigit, _, _, by rw [← List.append_assoc, h.1],
    fun _ hc => List.mem_takeWhile_imp hc, isFraction_scanFraction _, isExponent_scanExponent _, ?_⟩
  simpa using hne

theorem NumberEnds.not_isDigit (h : NumberEnds rest) : ∀ c ∈ rest.head?, c.isDigit = false := by
  cases rest with
  | nil => simp
  | cons c cs => simpa using h.1

/-! ## Reading numbers -/

theorem IsDigits.scanSign_append {sign ds : List Char} (hds : IsDigits ds)
    (hsign : sign = [] ∨ sign = ['+'] ∨ sign = ['-']) (rest : List Char) :
    scanSign (sign ++ (ds ++ rest)) = (sign, ds ++ rest) := by
  obtain ⟨d, ds', rfl⟩ := List.exists_cons_of_ne_nil hds.1
  have hd := hds.2 d List.mem_cons_self
  rcases hsign with rfl | rfl | rfl
  · unfold scanSign
    split <;> simp_all
  · rfl
  · rfl

theorem IsExponent.scan (h : IsExponent w) (hrest : NumberEnds rest) :
    scanExponent (w ++ rest) = (w, rest) := by
  rcases h with rfl | ⟨e, sign, ds, rfl, he, hsign, hds⟩
  · cases rest with
    | nil => rfl
    | cons c cs => simp [scanExponent, hrest.2.1, hrest.2.2.1]
  · have hscan := hds.scanSign_append hsign rest
    obtain ⟨htake, hdrop⟩ := hds.scan hrest.not_isDigit
    simp only [List.cons_append, List.append_assoc, scanExponent, hscan, htake, hdrop]
    rw [if_pos (by simpa using he)]
    split
    · exact absurd rfl hds.1
    · rfl

theorem IsExponent.head_spec (h : IsExponent w) (hrest : NumberEnds rest) :
    ∀ c ∈ (w ++ rest).head?, c.isDigit = false ∧
      (c = '.' → ∀ d ∈ (w ++ rest).tail.head?, d.isDigit = false) := by
  rcases h with rfl | ⟨e, sign, ds, rfl, he, -, -⟩
  · cases rest with
    | nil => simp
    | cons c cs =>
      intro d hd
      obtain rfl : c = d := by simpa using hd
      exact ⟨hrest.1, hrest.2.2.2⟩
  · intro d hd
    obtain rfl : e = d := by simpa using hd
    rcases he with rfl | rfl <;> exact ⟨by decide, fun h => absurd h (by decide)⟩

theorem IsFraction.scan (h : IsFraction w) (hrest : ∀ c ∈ rest.head?, c.isDigit = false ∧
    (c = '.' → ∀ d ∈ rest.tail.head?, d.isDigit = false)) :
    scanFraction (w ++ rest) = (w, rest) := by
  rcases h with rfl | ⟨ds, rfl, hds⟩
  · rw [List.nil_append]
    unfold scanFraction
    split
    · rename_i cs
      have hcs := (hrest '.' rfl).2 rfl
      have htake : cs.takeWhile Char.isDigit = [] := by
        cases cs with
        | nil => rfl
        | cons c cs => exact List.takeWhile_cons_of_neg (by simpa using hcs c rfl)
      rw [htake]
    · rfl
  · obtain ⟨htake, hdrop⟩ := hds.scan fun c hc => (hrest c hc).1
    simp only [List.cons_append, scanFraction, htake, hdrop]
    split
    · exact absurd rfl hds.1
    · rfl

/-- A number is read where it stands before something that does not continue it. -/
theorem IsNumeral.scan (h : IsNumeral w) (hrest : NumberEnds rest) :
    scanNumber (w ++ rest) = some (w, rest) := by
  obtain ⟨whole, fraction, exponent, rfl, hwhole, hfraction, hexponent, hne⟩ := h
  have hhead := hexponent.head_spec hrest
  have hscan : ((whole ++ (fraction ++ (exponent ++ rest))).takeWhile Char.isDigit = whole) ∧
      (whole ++ (fraction ++ (exponent ++ rest))).dropWhile Char.isDigit =
        fraction ++ (exponent ++ rest) := by
    refine takeWhile_append_cons hwhole ?_
    rcases hfraction with rfl | ⟨ds, rfl, -⟩
    · exact fun c hc => (hhead c hc).1
    · intro c hc
      obtain rfl : '.' = c := by simpa using hc
      decide
  unfold scanNumber
  simp only [List.append_assoc, hscan, hfraction.scan hhead, hexponent.scan hrest]
  rw [if_neg (by simpa using hne)]

/-! ## Reading symbols -/

/-- A symbol and a character make up a longer symbol. -/
def Symbol.goesOn (s : Symbol) (c : Char) : Bool :=
  Symbol.all.any fun s' => s'.spelling.toList = s.spelling.toList ++ [c]

theorem Symbol.mem_all (s : Symbol) : s ∈ Symbol.all := by
  cases s <;> decide

/-- Symbols go on with few characters. -/
theorem Symbol.eq_of_goesOn (h : s.goesOn c = true) : c = '=' ∨ c = '?' := by
  have table : ∀ s ∈ Symbol.all, ∀ s' ∈ Symbol.all, s'.spelling.toList.dropLast = s.spelling.toList →
      s'.spelling.toList.getLast? = some '=' ∨ s'.spelling.toList.getLast? = some '?' := by decide
  obtain ⟨s', hs', heq⟩ := List.any_eq_true.mp h
  have heq := of_decide_eq_true heq
  simpa [heq] using table s s.mem_all s' hs' (by simp [heq])

/-- The symbols before one in the list are no longer parts of it. -/
theorem Symbol.pairwise_all :
    Symbol.all.Pairwise fun a b => ¬ a.spelling.toList <+: b.spelling.toList := by
  decide

/-- If a symbol can go on to another one, then it can go on with the next character of that one. -/
theorem Symbol.goesOn_of_prefix {s s' : Symbol} {more : List Char}
    (h : s'.spelling.toList = s.spelling.toList ++ c :: more) : s.goesOn c = true := by
  have table : ∀ s ∈ Symbol.all, ∀ s' ∈ Symbol.all, s.spelling.toList <+: s'.spelling.toList →
      s.spelling.toList.length < s'.spelling.toList.length →
      ∃ s'' ∈ Symbol.all,
        s''.spelling.toList = s'.spelling.toList.take (s.spelling.toList.length + 1) := by decide
  obtain ⟨s'', hs'', heq⟩ := table s s.mem_all s' s'.mem_all ⟨_, h.symm⟩ (by simp [h])
  refine List.any_eq_true.mpr ⟨s'', hs'', decide_eq_true ?_⟩
  simp [heq, h, List.take_append]

/-- The symbol that is read is one that cannot go on. -/
theorem scanSymbol_eq_some_iff : scanSymbol cs = some (s, rest) ↔
    cs = s.spelling.toList ++ rest ∧ ∀ c ∈ rest.head?, s.goesOn c = false := by
  have hmap : ∀ s' : Symbol, (after? s'.spelling.toList cs).map (s', ·) = none ↔
      ¬ s'.spelling.toList <+: cs := fun s' => by
    rw [Option.map_eq_none_iff, Option.eq_none_iff_forall_ne_some]
    simp only [ne_eq, after?_eq_some_iff]
    exact ⟨fun h ⟨r, hr⟩ => h r hr.symm, fun h r hr => h ⟨r, hr.symm⟩⟩
  unfold scanSymbol
  rw [List.findSome?_eq_some_iff]
  constructor
  · rintro ⟨before, s', after, hall, hs', hbefore⟩
    simp only [Option.map_eq_some_iff, after?_eq_some_iff, Prod.mk.injEq] at hs'
    obtain ⟨r, hcs, rfl, heq⟩ := hs'
    rw [heq] at hcs
    refine ⟨hcs, fun c hc => Bool.eq_false_iff.mpr fun hgo => ?_⟩
    obtain ⟨r, rfl⟩ : ∃ r, rest = c :: r := by
      cases rest with
      | nil => cases hc
      | cons d r =>
        obtain rfl : d = c := by simpa using hc
        exact ⟨r, rfl⟩
    obtain ⟨longer, hmem, hlonger⟩ := List.any_eq_true.mp hgo
    have hlonger := of_decide_eq_true hlonger
    have hpairs := Symbol.pairwise_all
    rw [hall, List.pairwise_append, List.pairwise_cons] at hpairs
    rw [hall, List.mem_append, List.mem_cons] at hmem
    rcases hmem with hmem | rfl | hmem
    · exact (hmap longer).mp (hbefore longer hmem) ⟨r, by simp [hcs, hlonger]⟩
    · simp at hlonger
    · exact hpairs.2.1.1 longer hmem ⟨[c], hlonger.symm⟩
  · rintro ⟨rfl, hend⟩
    obtain ⟨before, after, hall⟩ := List.append_of_mem s.mem_all
    refine ⟨before, s, after, hall, ?_, fun s' hs' => (hmap s').mpr fun hprefix => ?_⟩
    · rw [after?_eq_some_iff.mpr rfl]
      rfl
    · have hpairs := Symbol.pairwise_all
      rw [hall, List.pairwise_append] at hpairs
      have hnot := hpairs.2.2 s' hs' s List.mem_cons_self
      rcases List.prefix_or_prefix_of_prefix hprefix ⟨rest, rfl⟩ with h | ⟨more, h⟩
      · exact hnot h
      · rcases more with _ | ⟨c, more⟩
        · exact hnot (by rw [← h, List.append_nil])
        · rw [← h, List.prefix_append_right_inj] at hprefix
          obtain ⟨r, hr⟩ := hprefix
          have := hend c (by simp [← hr])
          rw [Symbol.goesOn_of_prefix h.symm] at this
          cases this

/-! ## Reading tokens -/

/-- What stands after a token does not continue it. -/
def Token.EndsBefore : Token → List Char → Prop
  | reserved _, cs | ident _, cs => ∀ c ∈ cs.head?, isIdentRest c = false
  | string _, _ => True
  | number _, cs => NumberEnds cs
  | symbol s, cs => ∀ c ∈ cs.head?, s.goesOn c = false ∧ (s = .dot → c.isDigit = false)

/-- A token is read from its spelling. -/
def Token.Readable (t : Token) : Prop :=
  ∀ rest, t.EndsBefore rest → scanToken (t.spelling.toList ++ rest) = some (t, rest)

theorem not_isDigit_of_isIdentStart (h : isIdentStart c = true) : c.isDigit = false := by
  simp only [isIdentStart, Bool.or_eq_true, decide_eq_true_eq] at h
  rcases h with h | rfl
  · exact not_isDigit_of_isNameStart h
  · decide

theorem Token.endsBefore_ofWord : (Token.ofWord w).EndsBefore rest ↔
    ∀ c ∈ rest.head?, isIdentRest c = false := by
  simp only [Token.ofWord]
  split <;> rfl

theorem Token.readable_ofWord (hne : w ≠ []) (hword : IdentWord w) : (Token.ofWord w).Readable := by
  intro rest hrest
  rw [endsBefore_ofWord] at hrest
  obtain ⟨c, w, rfl⟩ := List.exists_cons_of_ne_nil hne
  have htail := takeWhile_append_cons (fun d hd => hword.2 d (List.mem_cons_of_mem c hd)) hrest
  rw [Token.spelling_ofWord, List.cons_append, scanToken, if_pos (hword.1 c rfl), htail.1, htail.2]

theorem Token.readable_string {q : Char} {a : List Char} (hq : isQuote q = true) (ha : Quoted q a) :
    (Token.string (String.ofList (q :: a))).Readable := by
  intro rest _
  have hstart : isIdentStart q = false := by
    rw [Bool.eq_false_iff]
    intro h
    rw [isQuote_of_isIdentRest (isIdentRest_of_isIdentStart h)] at hq
    cases hq
  rw [Token.spelling, String.toList_ofList, List.cons_append, scanToken,
    if_neg (by simp [hstart]), if_pos (by simpa [isQuote] using hq),
    scanQuoted_of_quoted (ne_backslash_of_isQuote hq) ha]
  rfl

theorem scanNumber_eq_none_iff : scanNumber (c :: cs) = none ↔
    c.isDigit = false ∧ (c = '.' → ∀ d ∈ cs.head?, d.isDigit = false) := by
  unfold scanNumber
  by_cases hc : c.isDigit = true
  · simp [hc]
  · have hc : c.isDigit = false := by simpa using hc
    by_cases hdot : c = '.'
    · subst hdot
      rcases cs with _ | ⟨d, cs⟩
      · simp [scanFraction, hc]
      · by_cases hd : d.isDigit = true
        · simp [scanFraction, hc, hd]
        · simp [scanFraction, hc, hd]
    · have hfraction : scanFraction (c :: cs) = ([], c :: cs) := by
        unfold scanFraction
        split
        · rename_i heq
          exact absurd (List.cons.inj heq).1 hdot
        · rfl
      simp [hc, hdot, hfraction]

theorem IsNumeral.head_spec (h : IsNumeral w) : ∃ c cs, w = c :: cs ∧ isIdentStart c = false ∧
    isQuote c = false := by
  obtain ⟨whole, fraction, exponent, rfl, hwhole, hfraction, -, hne⟩ := h
  have hdigit : ∀ {c : Char}, c.isDigit = true → isIdentStart c = false ∧ isQuote c = false :=
    fun {c} hc => by
      refine ⟨Bool.eq_false_iff.mpr fun h => ?_, (isNumberChar_of_isDigit hc).1⟩
      exact Bool.false_ne_true ((not_isDigit_of_isIdentStart h).symm.trans hc)
  rcases whole with _ | ⟨c, whole⟩
  · obtain ⟨ds, rfl, -⟩ := hfraction.resolve_left (hne rfl)
    exact ⟨'.', _, rfl, by decide, by decide⟩
  · exact ⟨c, _, rfl, hdigit (hwhole c List.mem_cons_self)⟩

theorem Token.readable_number (hw : IsNumeral w) : (Token.number (String.ofList w)).Readable := by
  intro rest hrest
  have hscan := hw.scan hrest
  obtain ⟨c, cs, rfl, hstart, hquote⟩ := hw.head_spec
  rw [Token.spelling, String.toList_ofList, List.cons_append, scanToken,
    if_neg (by simp [hstart]), if_neg (by simpa [isQuote] using hquote), ← List.cons_append, hscan]

theorem not_isDigit_of_not_isIdentRest (h : isIdentRest c = false) : c.isDigit = false := by
  rw [Bool.eq_false_iff]
  intro hd
  simp [isIdentRest, isNameRest, Char.isAlphanum, hd] at h

theorem not_isIdentStart_of_not_isIdentRest (h : isIdentRest c = false) : isIdentStart c = false :=
  Bool.eq_false_iff.mpr fun hc => Bool.false_ne_true (h.symm.trans (isIdentRest_of_isIdentStart hc))

theorem Symbol.spelling_head (s : Symbol) : ∃ c cs, s.spelling.toList = c :: cs ∧
    isIdentRest c = false ∧ isQuote c = false ∧ (c = '.' → s = .dot) := by
  cases s <;> exact ⟨_, _, rfl, by decide, by decide, by decide⟩

theorem Token.readable_symbol (s : Symbol) : (Token.symbol s).Readable := by
  intro rest hrest
  have hscan : scanSymbol (s.spelling.toList ++ rest) = some (s, rest) :=
    scanSymbol_eq_some_iff.mpr ⟨rfl, fun c hc => (hrest c hc).1⟩
  obtain ⟨c, cs, hs, hword, hquote, hdot⟩ := s.spelling_head
  have hnumber : scanNumber (c :: (cs ++ rest)) = none := by
    refine scanNumber_eq_none_iff.mpr ⟨not_isDigit_of_not_isIdentRest hword, fun hc => ?_⟩
    obtain rfl := hdot hc
    obtain rfl : [] = cs := (List.cons.inj hs).2
    exact fun d hd => (hrest d hd).2 rfl
  rw [hs, List.cons_append] at hscan
  have hstart := not_isIdentStart_of_not_isIdentRest hword
  rw [Token.spelling, hs, List.cons_append, scanToken, if_neg (by simp [hstart]),
    if_neg (by simpa [isQuote] using hquote), hnumber, hscan]
  rfl

/-- A token that was read anywhere is read wherever it cannot be continued. -/
theorem readable_of_scanToken (h : scanToken cs = some (t, rest)) :
    t.Readable ∧ cs = t.spelling.toList ++ rest ∧ (t.isNumber = false → t.EndsBefore rest) := by
  rcases cs with _ | ⟨c, cs⟩
  · cases h
  · rw [scanToken] at h
    split_ifs at h with hstart hquote
    · cases h
      have hword : IdentWord (c :: cs.takeWhile isIdentRest) := by
        refine ⟨by simpa using hstart, fun d hd => ?_⟩
        rcases List.mem_cons.mp hd with rfl | hd
        · exact isIdentRest_of_isIdentStart hstart
        · exact List.mem_takeWhile_imp hd
      refine ⟨Token.readable_ofWord (List.cons_ne_nil _ _) hword, ?_, fun _ => ?_⟩
      · rw [Token.spelling_ofWord, List.cons_append, List.takeWhile_append_dropWhile]
      · rw [Token.endsBefore_ofWord]
        intro d hd
        have hnot := List.head?_dropWhile_not isIdentRest cs
        rw [Option.mem_def.mp hd] at hnot
        exact hnot
    · obtain ⟨⟨a, r⟩, hscan, hr⟩ := Option.map_eq_some_iff.mp h
      cases hr
      obtain ⟨rfl, hquoted⟩ := quoted_of_scanQuoted hscan
      refine ⟨Token.readable_string (by simpa [isQuote] using hquote) hquoted, ?_, fun _ => trivial⟩
      simp [Token.spelling]
    · split at h
      · rename_i w r hscan
        cases h
        refine ⟨Token.readable_number (isNumeral_of_scanNumber hscan), ?_, fun h => by cases h⟩
        simpa [Token.spelling] using (scanNumber_eq hscan).1
      · rename_i hnumber
        obtain ⟨⟨s, r⟩, hscan, hr⟩ := Option.map_eq_some_iff.mp h
        cases hr
        obtain ⟨hcs, hend⟩ := scanSymbol_eq_some_iff.mp hscan
        refine ⟨Token.readable_symbol s, hcs, fun _ d hd => ⟨hend d hd, ?_⟩⟩
        rintro rfl
        obtain ⟨rfl, rfl⟩ := List.cons.inj hcs
        exact (scanNumber_eq_none_iff.mp hnumber).2 rfl d hd

end LiveMarkup
