import LiveMarkup.Proofs.Expr.Pasting

/-!
# Longest tokens

The rules for tokens tell which spellings a token of each kind has (`Token.Rule`).  Where several of
them fit, the token that is read is the longest one (`scanToken_eq_some_iff`), and where none fits,
nothing is read (`scanToken_eq_none_iff`).  So a token is read alike wherever the text after it is
cut off (`scanToken_of_append`).
-/

namespace LiveMarkup

open Text

variable {cs rest more w : List Char} {t u : Token}

/-! ## The rules -/

/-- The rules for tokens.  The rule for names does not spare the reserved words. -/
def Token.Rule : Token → Prop
  | reserved _ => True
  | ident name => name.toList ≠ [] ∧ IdentWord name.toList
  | string s => ∃ q a, s.toList = q :: a ∧ isQuote q = true ∧ Quoted q a
  | number s => IsNumeral s.toList
  | symbol _ => True

/-- By the rules, a token may be read at the start of a text. -/
structure Token.Fits (t : Token) (cs : List Char) : Prop where
  rule : t.Rule
  spelled : t.spelling.toList <+: cs

/-- A token gives way to a longer one, and a name to the reserved word with its spelling. -/
def Token.YieldsTo (u t : Token) : Prop :=
  u.spelling.toList.length < t.spelling.toList.length ∨ u = t ∨
    ∃ r, t = .reserved r ∧ u = .ident r.spelling

/-- The longest token that may be read at the start of a text. -/
structure Token.IsLongest (t : Token) (cs : List Char) : Prop where
  fits : t.Fits cs
  longest : ∀ u : Token, u.Fits cs → u.YieldsTo t

theorem Token.Fits.append (h : t.Fits cs) (more : List Char) : t.Fits (cs ++ more) :=
  ⟨h.rule, h.spelled.trans (List.prefix_append cs more)⟩

theorem Token.IsLongest.unique (ht : t.IsLongest cs) (hu : u.IsLongest cs) : t = u := by
  rcases ht.longest u hu.fits with hlt | rfl | ⟨r, rfl, rfl⟩
  · rcases hu.longest t ht.fits with hlt' | rfl | ⟨r, rfl, rfl⟩
    · omega
    · rfl
    · exact absurd hlt (lt_irrefl _)
  · rfl
  · rcases hu.longest _ ht.fits with hlt | heq | ⟨r', heq, -⟩
    · exact absurd hlt (lt_irrefl _)
    · exact heq
    · cases heq

/-! ## Words -/

theorem Reserved.ofSpelling?_spelling (r : Reserved) :
    Reserved.ofSpelling? r.spelling = some r := by
  cases r <;> rfl

theorem Reserved.identWord (r : Reserved) :
    r.spelling.toList ≠ [] ∧ IdentWord r.spelling.toList := by
  cases r <;>
    simp [Reserved.spelling, IdentWord, isIdentStart, isIdentRest, isNameStart, isNameRest]

theorem Token.rule_ofWord (hne : w ≠ []) (hw : IdentWord w) : (Token.ofWord w).Rule := by
  simp only [Token.ofWord]
  split
  · trivial
  · rw [Token.Rule, String.toList_ofList]
    exact ⟨hne, hw⟩

/-- A word is read together with what continues it. -/
theorem scanToken_identWord (hne : w ≠ []) (hw : IdentWord w) (more : List Char) :
    scanToken (w ++ more) =
      some (.ofWord (w ++ more.takeWhile isIdentRest), more.dropWhile isIdentRest) := by
  obtain ⟨c, v, rfl⟩ := List.exists_cons_of_ne_nil hne
  have hv : ∀ d ∈ v, isIdentRest d = true := fun d hd => hw.2 d (List.mem_cons_of_mem c hd)
  rw [List.cons_append, scanToken, if_pos (hw.1 c rfl), List.takeWhile_append_of_pos hv,
    List.dropWhile_append_of_pos hv, List.cons_append]

theorem scan_word (hne : w ≠ []) (hw : IdentWord w) (hu : u.spelling.toList = w)
    (hword : u.YieldsTo (.ofWord w)) (more : List Char) :
    ∃ t rest, scanToken (w ++ more) = some (t, rest) ∧ u.YieldsTo t := by
  refine ⟨_, _, scanToken_identWord hne hw more, ?_⟩
  rcases hmore : more.takeWhile isIdentRest with _ | ⟨d, ds⟩
  · rwa [List.append_nil]
  · left
    rw [Token.spelling_ofWord, hu, List.length_append, List.length_cons]
    omega

theorem Token.reserved_yieldsTo (r : Reserved) :
    (Token.reserved r).YieldsTo (.ofWord r.spelling.toList) := by
  have hword : Token.ofWord r.spelling.toList = .reserved r := by
    simp only [Token.ofWord, String.ofList_toList, Reserved.ofSpelling?_spelling]
  exact .inr (.inl hword.symm)

theorem Token.ident_yieldsTo (name : String) :
    (Token.ident name).YieldsTo (.ofWord name.toList) := by
  simp only [Token.ofWord, String.ofList_toList]
  split
  · rename_i r hr
    have hspelling := List.find?_some hr
    exact .inr (.inr ⟨r, rfl, by rw [of_decide_eq_true hspelling]⟩)
  · exact .inr (.inl rfl)

/-! ## Numbers -/

theorem IsDigits.takeWhile_append {ds : List Char} (h : IsDigits ds) (more : List Char) :
    (ds ++ more).takeWhile Char.isDigit = ds ++ more.takeWhile Char.isDigit :=
  List.takeWhile_append_of_pos h.2

/-- The exponent that is taken is the longest. -/
theorem IsExponent.prefix_scan (h : IsExponent w) (more : List Char) :
    w <+: (scanExponent (w ++ more)).1 := by
  rcases h with rfl | ⟨e, sign, ds, rfl, he, hsign, hds⟩
  · exact List.nil_prefix
  · have hscan := hds.scanSign_append hsign more
    have htake := hds.takeWhile_append more
    -- the digits are not empty, which is what the scanner asks for
    obtain ⟨d, ds', rfl⟩ := List.exists_cons_of_ne_nil hds.1
    simp only [List.cons_append, List.append_assoc] at hscan htake ⊢
    simp only [scanExponent, hscan, htake, Bool.or_eq_true, decide_eq_true_eq, if_pos he]
    simp

/-- An exponent starts with a letter, which ends the digits before it. -/
theorem IsExponent.head_append (h : IsExponent w) (hne : w ≠ []) (more : List Char) :
    ∀ c ∈ (w ++ more).head?, c.isDigit = false ∧
      (c = '.' → ∀ d ∈ (w ++ more).tail.head?, d.isDigit = false) := by
  obtain ⟨e, sign, ds, rfl, he, -, -⟩ := h.resolve_left hne
  intro c hc
  obtain rfl : e = c := by simpa using hc
  rcases he with rfl | rfl <;> exact ⟨by decide, fun h => absurd h (by decide)⟩

theorem IsDigits.scanFraction_append {ds : List Char} (h : IsDigits ds) (more : List Char) :
    (scanFraction ('.' :: (ds ++ more))).1 = '.' :: (ds ++ more.takeWhile Char.isDigit) := by
  obtain ⟨d, ds', rfl⟩ := List.exists_cons_of_ne_nil h.1
  have htake := h.takeWhile_append more
  simp only [scanFraction, htake]
  simp

theorem IsFraction.prefix_scan {x f : List Char} (hf : IsFraction f) (hx : IsExponent x)
    (more : List Char) :
    f ++ x <+: (scanFraction (f ++ (x ++ more))).1 ++
      (scanExponent (scanFraction (f ++ (x ++ more))).2).1 := by
  by_cases hne : x = []
  · subst hne
    rw [List.append_nil, List.nil_append]
    refine List.IsPrefix.trans ?_ (List.prefix_append _ _)
    rcases hf with rfl | ⟨ds, rfl, hds⟩
    · exact List.nil_prefix
    · rw [List.cons_append, hds.scanFraction_append]
      exact List.cons_prefix_cons.mpr ⟨rfl, List.prefix_append _ _⟩
  · rw [hf.scan (hx.head_append hne more)]
    exact (List.prefix_append_right_inj f).mpr (hx.prefix_scan more)

/-- The number that is read is the longest. -/
theorem IsNumeral.prefix_scan (h : IsNumeral w) (more : List Char) :
    ∃ n rest, scanNumber (w ++ more) = some (n, rest) ∧ w <+: n := by
  obtain ⟨whole, f, x, rfl, hwhole, hf, hx, hne⟩ := h
  rw [List.append_assoc, List.append_assoc]
  unfold scanNumber
  dsimp only
  by_cases hall : f = [] ∧ x = []
  · obtain ⟨rfl, rfl⟩ := hall
    have hwhole' : whole ≠ [] := fun hnil => hne hnil rfl
    rw [List.nil_append, List.nil_append, List.takeWhile_append_of_pos hwhole,
      if_neg (by simp [hwhole'])]
    refine ⟨_, _, rfl, ?_⟩
    simp only [List.append_nil, List.append_assoc]
    exact List.prefix_append _ _
  · -- the digits end where the fraction or the exponent starts
    have hhead : ∀ c ∈ (f ++ (x ++ more)).head?, c.isDigit = false := by
      rcases hf with rfl | ⟨ds, rfl, -⟩
      · exact fun c hc => (hx.head_append (fun hnil => hall ⟨rfl, hnil⟩) more c hc).1
      · intro c hc
        obtain rfl : '.' = c := by simpa using hc
        decide
    obtain ⟨htake, hdrop⟩ := takeWhile_append_cons hwhole hhead
    rw [htake, hdrop, if_neg]
    · refine ⟨_, _, rfl, ?_⟩
      rw [List.append_assoc]
      exact (List.prefix_append_right_inj whole).mpr (hf.prefix_scan hx more)
    · rw [Bool.and_eq_true, decide_eq_true_eq, decide_eq_true_eq]
      rintro ⟨hnil, hfraction⟩
      obtain ⟨ds, rfl, hds⟩ := hf.resolve_left (hne hnil)
      rw [List.cons_append, hds.scanFraction_append] at hfraction
      cases hfraction

theorem IsNumeral.ne_nil_of_dot (h : IsNumeral ('.' :: w)) : w ≠ [] := by
  obtain ⟨whole, f, x, hw, hwhole, hf, -, hne⟩ := h
  rcases whole with _ | ⟨d, whole⟩
  · obtain ⟨ds, rfl, hds⟩ := hf.resolve_left (hne rfl)
    rw [List.nil_append, List.cons_append] at hw
    rw [(List.cons.inj hw).2]
    exact List.append_ne_nil_of_left_ne_nil hds.1 x
  · obtain ⟨rfl, -⟩ := List.cons.inj hw
    exact absurd (hwhole '.' List.mem_cons_self) (by decide)

/-! ## Symbols -/

theorem Symbol.spelling_injective {s s' : Symbol}
    (h : s.spelling.toList = s'.spelling.toList) : s = s' := by
  have table : ∀ s ∈ Symbol.all, ∀ s' ∈ Symbol.all,
      s.spelling.toList = s'.spelling.toList → s = s' := by decide
  exact table s s.mem_all s' s'.mem_all h

/-- The symbol that is read is the longest. -/
theorem Symbol.prefix_scan (s : Symbol) (more : List Char) :
    ∃ s' rest, scanSymbol (s.spelling.toList ++ more) = some (s', rest) ∧
      s.spelling.toList <+: s'.spelling.toList := by
  rcases hscan : scanSymbol (s.spelling.toList ++ more) with _ | ⟨s', rest⟩
  · have hnone := List.findSome?_eq_none_iff.mp hscan s s.mem_all
    rw [after?_eq_some_iff.mpr rfl] at hnone
    cases hnone
  · refine ⟨s', rest, rfl, ?_⟩
    obtain ⟨hcs, hend⟩ := scanSymbol_eq_some_iff.mp hscan
    rcases List.append_eq_append_iff.mp hcs with ⟨tail, htail, -⟩ | ⟨tail, htail, rfl⟩
    · exact ⟨tail, htail.symm⟩
    · rcases tail with _ | ⟨c, tail⟩
      · rw [htail, List.append_nil]
      · have := hend c rfl
        rw [Symbol.goesOn_of_prefix htail] at this
        cases this

/-! ## The token that is read -/

theorem scan_symbol (s : Symbol) (more : List Char) :
    ∃ t rest, scanToken (s.spelling.toList ++ more) = some (t, rest) ∧
      (Token.symbol s).YieldsTo t := by
  obtain ⟨s', rest, hscan, hle⟩ := s.prefix_scan more
  obtain ⟨c, w, hs, hword, hquote, hdot⟩ := s.spelling_head
  rw [hs, List.cons_append] at hscan
  rw [hs, List.cons_append, scanToken,
    if_neg (by simp [not_isIdentStart_of_not_isIdentRest hword]),
    if_neg (by simpa [isQuote] using hquote)]
  rcases hnumber : scanNumber (c :: (w ++ more)) with _ | ⟨n, rest'⟩
  · refine ⟨.symbol s', rest, by simp [hscan], ?_⟩
    rcases hle.length_le.lt_or_eq with hlt | heq
    · exact .inl hlt
    · exact .inr (.inl (by rw [Symbol.spelling_injective (hle.eq_of_length heq)]))
  · -- a number that starts with a symbol starts with a dot, and has a digit after it
    refine ⟨.number (String.ofList n), rest', rfl, .inl ?_⟩
    obtain rfl : c = '.' := by
      by_contra hc
      rw [scanNumber_eq_none_iff.mpr ⟨not_isDigit_of_not_isIdentRest hword, fun h => absurd h hc⟩]
        at hnumber
      cases hnumber
    obtain rfl := hdot rfl
    obtain ⟨heq, -, hne⟩ := scanNumber_eq hnumber
    obtain ⟨d, n, rfl⟩ := List.exists_cons_of_ne_nil hne
    obtain ⟨rfl, -⟩ := List.cons.inj heq
    have hpos := List.length_pos_of_ne_nil (isNumeral_of_scanNumber hnumber).ne_nil_of_dot
    rw [Token.spelling, Token.spelling, String.toList_ofList, List.length_cons]
    exact Nat.succ_lt_succ hpos

theorem Token.Fits.scan (h : u.Fits cs) :
    ∃ t rest, scanToken cs = some (t, rest) ∧ u.YieldsTo t := by
  obtain ⟨hrule, more, rfl⟩ := h
  cases u with
  | reserved r =>
    exact scan_word r.identWord.1 r.identWord.2 rfl (Token.reserved_yieldsTo r) more
  | ident name => exact scan_word hrule.1 hrule.2 rfl (Token.ident_yieldsTo name) more
  | string s =>
    obtain ⟨q, a, hs, hq, ha⟩ := hrule
    have hread := Token.readable_string hq ha more trivial
    rw [← hs, String.ofList_toList] at hread
    exact ⟨_, _, hread, .inr (.inl rfl)⟩
  | number s =>
    obtain ⟨n, rest, hscan, hle⟩ := hrule.prefix_scan more
    obtain ⟨c, w, hs, hstart, hquote⟩ := hrule.head_spec
    refine ⟨.number (String.ofList n), rest, ?_, ?_⟩
    · rw [hs, List.cons_append] at hscan
      rw [Token.spelling, hs, List.cons_append, scanToken, if_neg (by simp [hstart]),
        if_neg (by simpa [isQuote] using hquote), hscan]
    · rcases hle.length_le.lt_or_eq with hlt | heq
      · left
        rwa [Token.spelling, Token.spelling, String.toList_ofList]
      · rw [← hle.eq_of_length heq, String.ofList_toList]
        exact .inr (.inl rfl)
  | symbol s => exact scan_symbol s more

theorem rule_of_scanToken (h : scanToken cs = some (t, rest)) : t.Rule := by
  have hnumber : ∀ n, t = .number n → IsNumeral n.toList := by
    rintro n rfl
    exact isNumeral_of_scanToken h
  cases scanned_of_scanToken h with
  | word hne hword => exact Token.rule_ofWord hne hword
  | string hq ha => exact ⟨_, _, String.toList_ofList, hq, ha⟩
  | number => exact hnumber _ rfl
  | symbol => trivial

theorem isLongest_of_scanToken (h : scanToken cs = some (t, rest)) :
    cs = t.spelling.toList ++ rest ∧ t.IsLongest cs := by
  obtain ⟨-, hcs, -⟩ := readable_of_scanToken h
  refine ⟨hcs, ⟨rule_of_scanToken h, rest, hcs.symm⟩, fun u hu => ?_⟩
  obtain ⟨t', rest', h', hyields⟩ := hu.scan
  rw [h] at h'
  cases h'
  exact hyields

/-- The token that is read is the longest of those that may be read. -/
theorem scanToken_eq_some_iff :
    scanToken cs = some (t, rest) ↔ cs = t.spelling.toList ++ rest ∧ t.IsLongest cs := by
  constructor
  · exact isLongest_of_scanToken
  · rintro ⟨rfl, hlongest⟩
    obtain ⟨t', rest', h, -⟩ := hlongest.fits.scan
    obtain ⟨hcs, hlongest'⟩ := isLongest_of_scanToken h
    obtain rfl := hlongest.unique hlongest'
    rw [h, List.append_cancel_left hcs]

/-- Nothing is read only where no token may be read. -/
theorem scanToken_eq_none_iff : scanToken cs = none ↔ ∀ u : Token, ¬ u.Fits cs := by
  constructor
  · intro h u hu
    obtain ⟨t, rest, hs, -⟩ := hu.scan
    rw [h] at hs
    cases hs
  · intro h
    rcases hs : scanToken cs with _ | ⟨t, rest⟩
    · rfl
    · exact absurd (isLongest_of_scanToken hs).2.fits (h t)

/-- A token is read alike if the text is cut off somewhere after it. -/
theorem scanToken_of_append
    (h : scanToken (t.spelling.toList ++ rest ++ more) = some (t, rest ++ more)) :
    scanToken (t.spelling.toList ++ rest) = some (t, rest) := by
  obtain ⟨-, hfits, hlongest⟩ := scanToken_eq_some_iff.mp h
  refine scanToken_eq_some_iff.mpr ⟨rfl, ⟨hfits.rule, List.prefix_append _ _⟩, fun u hu => ?_⟩
  exact hlongest u (hu.append more)

end LiveMarkup
