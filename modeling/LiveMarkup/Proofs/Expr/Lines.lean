import LiveMarkup.Proofs.Expr.Evaluated
import LiveMarkup.Proofs.Expr.Seams

/-!
# Texts that are expressions

Before an expression is evaluated its text is brought into one line, and braces around it are taken
off.  If no backslash stands before the end of a line, the tokens stay in kind
(`lexes_map_lineBlank_iff`), and with them what can be read as an expression.  So a text is an
expression afterwards just if it was one before, unless it starts with one pair of braces and ends
with another (`isExpression_normalize_iff`).
-/

namespace LiveMarkup

open Text

variable {cs rest source : List Char} {c : Char} {t : Token} {ts us : List Token}

/-- A text is read as an expression. -/
def IsExpression (cs : List Char) : Prop :=
  ∃ e, parseExpr cs = .ok e

/-- Tokens stand for an expression, wherever they stand. -/
def Parses (ts : List Token) : Prop :=
  ∃ ls e, ls.map Lexeme.token = ts ∧ Derives .choice ls e

theorem isExpression_iff : IsExpression cs ↔ ∃ ts, Lexes cs ts ∧ Parses ts := by
  constructor
  · rintro ⟨e, he⟩
    obtain ⟨ls, hls, hparse⟩ := bind_eq_ok_iff.mp he
    exact ⟨_, lexes_tokenize hls, ls, e, rfl, parseTokens_eq_ok_iff.mp hparse⟩
  · rintro ⟨ts, hts, ls, e, rfl, he⟩
    obtain ⟨ls', hls', htokens⟩ := lexes_iff_tokenize.mp hts
    obtain ⟨e', he', -⟩ := he.respan htokens
    refine ⟨e', ?_⟩
    rw [parseExpr, hls', ok_bind]
    exact parseTokens_eq_ok_iff.mpr he'

/-! ## Tokens of a text in one line -/

/-- A token as it is in a text that is brought into one line. -/
def Token.inLine : Token → Token
  | .string s => .string (String.ofList (s.toList.map lineBlank))
  | t => t

theorem Token.inLine_ofWord (w : List Char) : (Token.ofWord w).inLine = Token.ofWord w := by
  unfold Token.ofWord
  simp only
  split <;> rfl

theorem respell_lineBlank (cs : List Char) : Respells.respell lineBlank [] cs = cs.map lineBlank :=
  List.append_nil _

theorem scanQuoted_map_lineBlank {q : Char} (hq : isQuote q = true) (h : ¬ HasEscapedBreak cs) :
    scanQuoted q (cs.map lineBlank) =
      (scanQuoted q cs).map fun (a, rest) => (a.map lineBlank, rest.map lineBlank) := by
  have hb := ne_backslash_of_isQuote hq
  rcases hs : scanQuoted q cs with _ | ⟨a, rest⟩
  · refine Option.eq_none_iff_forall_not_mem.mpr fun ⟨a', b'⟩ hmem => ?_
    obtain ⟨he, ha'⟩ := (scanQuoted_eq_some_iff hb).mp hmem
    obtain ⟨a, b, rfl, ha, -⟩ := List.map_eq_append_iff.mp he
    have hquoted := quoted_of_map_lineBlank hq (fun hbreak => h ?_) ha ha'
    · rw [scanQuoted_of_quoted hb hquoted] at hs
      cases hs
    · exact hbreak.trans (List.prefix_append a b).isInfix
  · obtain ⟨rfl, ha⟩ := quoted_of_scanQuoted hs
    rw [List.map_append, scanQuoted_of_quoted hb (ha.map_lineBlank hq)]
    rfl

theorem isTokenBlank_lineBlank (c : Char) : isTokenBlank (lineBlank c) = isTokenBlank c := by
  cases hc : isTokenBlank c with
  | false => rw [Lexes.respells_lineBlank.keeps c hc, hc]
  | true => exact Lexes.respells_lineBlank.blank c hc

/-- The token at the start of a text is read in one line as it is in several. -/
theorem scanToken_map_lineBlank (h : ¬ HasEscapedBreak cs) :
    scanToken (cs.map lineBlank) =
      (scanToken cs).map fun (t, rest) => (t.inLine, rest.map lineBlank) := by
  rcases cs with _ | ⟨c, cs⟩
  · rfl
  have hcs : ¬ HasEscapedBreak cs := fun hbreak => h (hbreak.trans (List.suffix_cons c cs).isInfix)
  cases hc : isTokenBlank c with
  | true =>
    rw [List.map_cons, scanToken_blank (isBlank_of_isTokenBlank hc),
      scanToken_blank (isBlank_of_isTokenBlank (by rw [isTokenBlank_lineBlank, hc]))]
    rfl
  | false =>
    rw [List.map_cons, Lexes.respells_lineBlank.keeps c hc]
    simp only [scanToken]
    split_ifs with hident hquote
    · rw [← respell_lineBlank, Lexes.respells_lineBlank.takeWhile_respell tight_isIdentRest,
        Lexes.respells_lineBlank.dropWhile_respell tight_isIdentRest, respell_lineBlank]
      simp [Token.inLine_ofWord]
    · have hq : isQuote c = true := by simpa [isQuote] using hquote
      rw [scanQuoted_map_lineBlank hq hcs, Option.map_map, Option.map_map]
      congr 1
      funext r
      obtain ⟨a, rest⟩ := r
      simp [Token.inLine, lineBlank_of_isQuote hq]
    · have hnumber := @Respells.scanNumber_respell lineBlank [] (c :: cs) Lexes.respells_lineBlank
      have hsymbol := @Respells.scanSymbol_respell lineBlank [] cs Lexes.respells_lineBlank c hc
      simp only [respell_lineBlank, List.map_cons, Lexes.respells_lineBlank.keeps c hc] at hnumber hsymbol
      rw [hnumber, hsymbol]
      rcases scanNumber (c :: cs) with _ | ⟨n, r⟩
      · rcases scanSymbol (c :: cs) with _ | ⟨s, r⟩ <;> rfl
      · rfl

/-- A text has tokens in one line if it has in several, and they differ in strings alone. -/
theorem lexes_map_lineBlank_iff (h : ¬ HasEscapedBreak cs) :
    Lexes (cs.map lineBlank) us ↔ ∃ ts, Lexes cs ts ∧ us = ts.map Token.inLine := by
  constructor
  · induction hn : cs.length using Nat.strong_induction_on generalizing cs us with
    | _ n ih =>
      subst hn
      intro hus
      rcases cs with _ | ⟨c, cs⟩
      · exact ⟨[], .nil nofun, hus.eq_nil⟩
      rcases hus.of_cons with ⟨hc, hrest⟩ | ⟨t, us, rest, rfl, hmap, hrest⟩
      · have hcs : ¬ HasEscapedBreak cs := fun hbreak =>
          h (hbreak.trans (List.suffix_cons c cs).isInfix)
        obtain ⟨ts, hts, rfl⟩ := ih cs.length (by simp) hcs rfl hrest
        rw [isTokenBlank_lineBlank] at hc
        exact ⟨ts, hts.blank_append (List.forall_mem_singleton.mpr hc), rfl⟩
      · rw [← List.map_cons, scanToken_map_lineBlank h] at hmap
        obtain ⟨⟨t, rest⟩, hs, heq⟩ := Option.map_eq_some_iff.mp hmap
        cases heq
        obtain ⟨w, hw⟩ := (scanned_of_scanToken hs).exists_append
        have hrest' : ¬ HasEscapedBreak rest := fun hbreak =>
          h (hbreak.trans (hw ▸ List.suffix_append w rest).isInfix)
        obtain ⟨ts, hts, rfl⟩ := ih rest.length (length_lt_of_scanToken hs) hrest' rfl hrest
        exact ⟨t :: ts, @Lexes.cons [] _ _ _ _ nofun hs hts, rfl⟩
  · rintro ⟨ts, hts, rfl⟩
    induction hts with
    | nil hb =>
      refine .nil fun c hc => ?_
      obtain ⟨d, hd, rfl⟩ := List.mem_map.mp hc
      rw [isTokenBlank_lineBlank, hb d hd]
    | @cons blanks y rest t ts hb hs hrest ih =>
      obtain ⟨w, hw⟩ := (scanned_of_scanToken hs).exists_append
      have hy : ¬ HasEscapedBreak y := fun hbreak =>
        h (hbreak.trans (List.suffix_append blanks y).isInfix)
      rw [List.map_append, List.map_cons]
      refine .cons (fun c hc => ?_) (by rw [scanToken_map_lineBlank hy, hs]; rfl)
        (ih fun hbreak => hy (hbreak.trans (hw ▸ List.suffix_append w rest).isInfix))
      obtain ⟨d, hd, rfl⟩ := List.mem_map.mp hc
      rw [isTokenBlank_lineBlank, hb d hd]

/-! ## Expressions whose strings change -/

/-- The kind of a token: strings do not count. -/
def Token.kind : Token → Token
  | .string _ => .string ""
  | t => t

theorem Token.kind_inLine (t : Token) : t.inLine.kind = t.kind := by
  cases t <;> rfl

theorem Token.eq_or_string {t t' : Token} (h : t'.kind = t.kind) :
    t' = t ∨ ∃ s s', t = .string s ∧ t' = .string s' := by
  cases t <;> cases t' <;> cases h
  case string.string s s' => exact .inr ⟨s, s', rfl, rfl⟩
  all_goals exact .inl rfl

/-- Tokens of the same kinds stand for an expression too. -/
theorem Derives.of_kind {k : Category} {ls ls' : List Lexeme} {e : Expr} (h : Derives k ls e)
    (hls : ls'.map (·.token.kind) = ls.map (·.token.kind)) : ∃ e', Derives k ls' e' := by
  have symbol : ∀ {l l' : Lexeme} {s : Symbol}, l.token = .symbol s → l'.token.kind = l.token.kind →
      l'.token = .symbol s := by
    intro l l' s hl hkind
    rcases Token.eq_or_string hkind with heq | ⟨_, _, hstring, -⟩
    · rw [heq, hl]
    · rw [hl] at hstring
      cases hstring
  induction h generalizing ls' with
  | choice _ ih => exact (ih hls).imp fun _ => .choice
  | tighter hn _ ih => exact (ih hls).imp fun _ => .tighter hn
  | level _ ih => exact (ih hls).imp fun _ => .level
  | noPrefix _ ih => exact (ih hls).imp fun _ => .noPrefix
  | access _ ih => exact (ih hls).imp fun _ => .access
  | conditional _ hquestion _ hcolon _ iht iha ihb =>
    rw [List.map_append, List.map_append, List.map_cons, List.map_cons] at hls
    obtain ⟨front, back, rfl, hfront, hback⟩ := List.map_eq_append_iff.mp hls
    obtain ⟨ts, mid, rfl, hts, hmid⟩ := List.map_eq_append_iff.mp hfront
    obtain ⟨q, as, rfl, hq, has⟩ := List.map_eq_cons_iff.mp hmid
    obtain ⟨k, bs, rfl, hk, hbs⟩ := List.map_eq_cons_iff.mp hback
    obtain ⟨test, ht⟩ := iht hts
    obtain ⟨a, ha⟩ := iha has
    obtain ⟨b, hb⟩ := ihb hbs
    exact ⟨_, .conditional ht (symbol hquestion hq) ha (symbol hcolon hk) hb⟩
  | binary hrow hmem _ ho _ ihl ihr =>
    rw [List.map_append, List.map_cons] at hls
    obtain ⟨ls, back, rfl, hl, hback⟩ := List.map_eq_append_iff.mp hls
    obtain ⟨o, rs, rfl, ho', hr⟩ := List.map_eq_cons_iff.mp hback
    obtain ⟨l, hl⟩ := ihl hl
    obtain ⟨r, hr⟩ := ihr hr
    exact ⟨_, .binary hrow hmem hl (symbol ho ho') hr⟩
  | unary hmem ho _ ih =>
    obtain ⟨o, ts, rfl, ho', hts⟩ := List.map_eq_cons_iff.mp hls
    obtain ⟨e', he⟩ := ih hts
    exact ⟨_, .unary hmem (symbol ho ho') he⟩
  | @member _ _ _ dot property _ hdot hproperty ih =>
    rw [List.map_append] at hls
    obtain ⟨ts, back, rfl, hts, hback⟩ := List.map_eq_append_iff.mp hls
    obtain ⟨d, back, rfl, hd, hback⟩ := List.map_eq_cons_iff.mp hback
    obtain ⟨p, rfl, hp⟩ := List.map_eq_singleton_iff.mp hback
    obtain ⟨e', he⟩ := ih hts
    rcases Token.eq_or_string hp with heq | ⟨_, _, hstring, -⟩
    · exact ⟨_, .member he (symbol hdot hd) (by rw [heq]; exact hproperty)⟩
    · rw [hstring] at hproperty
      cases hproperty
  | index _ hopening _ hclosing ih ihk =>
    rw [List.map_append, List.map_append, List.map_cons, List.map_singleton] at hls
    obtain ⟨front, back, rfl, hfront, hback⟩ := List.map_eq_append_iff.mp hls
    obtain ⟨ts, mid, rfl, hts, hmid⟩ := List.map_eq_append_iff.mp hfront
    obtain ⟨o, ks, rfl, ho, hks⟩ := List.map_eq_cons_iff.mp hmid
    obtain ⟨k, rfl, hk⟩ := List.map_eq_singleton_iff.mp hback
    obtain ⟨e', he⟩ := ih hts
    obtain ⟨key, hkey⟩ := ihk hks
    exact ⟨_, .index he (symbol hopening ho) hkey (symbol hclosing hk)⟩
  | literal ht =>
    obtain ⟨l, rfl, hl⟩ := List.map_eq_singleton_iff.mp hls
    rcases Token.eq_or_string hl with heq | ⟨_, s, -, heq⟩
    · exact ⟨_, .literal (by rw [heq]; exact ht)⟩
    · exact ⟨_, .literal (by rw [heq]; rfl)⟩
  | ident ht =>
    obtain ⟨l, rfl, hl⟩ := List.map_eq_singleton_iff.mp hls
    rcases Token.eq_or_string hl with heq | ⟨_, _, hstring, -⟩
    · exact ⟨_, .ident (heq.trans ht)⟩
    · rw [ht] at hstring
      cases hstring
  | group hmem hopening _ hclosing ih =>
    rw [List.map_append, List.map_cons, List.map_singleton] at hls
    obtain ⟨front, back, rfl, hfront, hback⟩ := List.map_eq_append_iff.mp hls
    obtain ⟨o, ts, rfl, ho, hts⟩ := List.map_eq_cons_iff.mp hfront
    obtain ⟨c, rfl, hc⟩ := List.map_eq_singleton_iff.mp hback
    obtain ⟨e', he⟩ := ih hts
    exact ⟨_, .group hmem (symbol hopening ho) he (symbol hclosing hc)⟩

theorem parses_inLine_iff : Parses (ts.map Token.inLine) ↔ Parses ts := by
  have reads : ∀ {as bs : List Token}, bs.map Token.kind = as.map Token.kind → Parses as →
      Parses bs := by
    rintro _ bs hkinds ⟨ls, e, rfl, he⟩
    let ls' := bs.map fun t => (⟨t, 0, 0⟩ : Lexeme)
    have htokens : ls'.map Lexeme.token = bs := by simp [ls', Function.comp_def]
    have hsame : ls'.map (·.token.kind) = ls.map (·.token.kind) := by
      rw [← htokens] at hkinds
      simpa [Function.comp_def] using hkinds
    obtain ⟨e', he'⟩ := he.of_kind hsame
    exact ⟨ls', e', htokens, he'⟩
  have hkinds : (ts.map Token.inLine).map Token.kind = ts.map Token.kind := by
    simp [Function.comp_def, Token.kind_inLine]
  exact ⟨reads hkinds.symm, reads hkinds⟩

theorem isExpression_map_lineBlank_iff (h : ¬ HasEscapedBreak cs) :
    IsExpression (cs.map lineBlank) ↔ IsExpression cs := by
  simp only [isExpression_iff, lexes_map_lineBlank_iff h]
  constructor
  · rintro ⟨_, ⟨ts, hts, rfl⟩, hparses⟩
    exact ⟨ts, hts, parses_inLine_iff.mp hparses⟩
  · rintro ⟨ts, hts, hparses⟩
    exact ⟨_, ⟨ts, hts, rfl⟩, parses_inLine_iff.mpr hparses⟩

/-! ## Braces around a text -/

namespace Lexes

/-- What ends a token is read after the tokens before it. -/
theorem concat (h : Lexes cs ts) (hc : isLoose c = true) (hus : Lexes [c] us) :
    Lexes (cs ++ [c]) (ts ++ us) := by
  induction h with
  | nil hb => exact hus.blank_append hb
  | cons hb hs _ ih =>
    have hscan := (respells_id hc).scanToken_respell hs fun _ _ => List.map_id _
    rw [respell_id, respell_id] at hscan
    rw [List.append_assoc]
    exact .cons hb hscan ih

theorem append_blank {b : List Char} (hb : ∀ c ∈ b, isTokenBlank c = true) (h : Lexes cs ts) :
    Lexes (cs ++ b) ts := by
  induction b using List.reverseRecOn with
  | nil => rwa [List.append_nil]
  | append_singleton b c ih =>
    rw [List.forall_mem_append] at hb
    have hconcat := (ih hb.1).concat (isLoose_of_isTokenBlank (hb.2 c (by simp))) (.nil hb.2)
    rwa [List.append_nil, List.append_assoc] at hconcat

/-- If nothing but blanks of tokens is taken off, no token comes or goes. -/
theorem trim_iff (hblank : ∀ c ∈ cs, isBlank c = true → isTokenBlank c = true) :
    Lexes (Text.trim cs) ts ↔ Lexes cs ts := by
  refine ⟨fun h => ?_, trim⟩
  obtain ⟨a, b, hcs, ha, hb⟩ := trim_eq cs
  rw [hcs] at hblank ⊢
  rw [List.forall_mem_append, List.forall_mem_append] at hblank
  exact (h.append_blank fun c hc => hblank.2.2 c hc (hb c hc)).blank_append
    fun c hc => hblank.1 c hc (ha c hc)

theorem braces_iff : Lexes ('\x7b' :: (cs ++ ['\x7d'])) ts ↔
    ∃ us, ts = .symbol .openBrace :: us ++ [.symbol .closeBrace] ∧ Lexes cs us := by
  constructor
  · intro h
    obtain ⟨us, rfl, hinner⟩ := h.of_openBrace_cons
    obtain ⟨us, rfl, hcs⟩ := hinner.of_concat_closeBrace
    exact ⟨us, rfl, hcs⟩
  · rintro ⟨us, rfl, hcs⟩
    have hclose : Lexes ['\x7d'] [.symbol .closeBrace] :=
      @Lexes.cons [] _ _ _ _ nofun scanToken_closeBrace (.nil nofun)
    exact @Lexes.cons [] _ _ _ _ nofun (scanToken_openBrace _) (hcs.concat (by decide) hclose)

end Lexes

theorem normalize_eq (source : List Char) :
    normalize source = (trim (unwrapBraces (trim source))).map lineBlank :=
  trim_map_lineBlank _

/-- A text means the same with and without the braces around it, if there are any. -/
structure Upright (source : List Char) : Prop where
  breaks : ¬ HasEscapedBreak source
  /-- Within braces no other blanks stand than between tokens. -/
  blanks : ∀ inner, trim source = '\x7b' :: (inner ++ ['\x7d']) →
    ∀ c ∈ inner, isBlank c = true → isTokenBlank c = true
  apart : ∀ ts, Lexes (trim source) ts → ¬ OuterBracesApart ts

/-- A text that does not start with a brace is upright. -/
theorem Upright.of_head (hbreak : ¬ HasEscapedBreak source)
    (hhead : (trim source).head? ≠ some '\x7b') : Upright source where
  breaks := hbreak
  blanks inner hinner := by
    rw [hinner] at hhead
    exact absurd rfl hhead
  apart ts hts := by
    rintro ⟨hfirst, -, -⟩
    obtain ⟨us, rfl⟩ := List.head?_eq_some_iff.mp hfirst
    have hdrop := (ends_of_trim (trim_trim source)).1
    rcases htrim : trim source with _ | ⟨c, cs⟩ <;> rw [htrim] at hts hdrop hhead
    · cases hts.eq_nil
    · rcases hts.of_cons with ⟨hc, -⟩ | ⟨t, us', rest, heq, hs, -⟩
      · rw [List.dropWhile_cons_of_pos (isBlank_of_isTokenBlank hc)] at hdrop
        have hlen := congrArg List.length hdrop
        have := List.length_dropWhile_le isBlank cs
        rw [List.length_cons] at hlen
        omega
      · obtain ⟨rfl, -⟩ := List.cons.inj heq
        have hopen := eq_of_scanToken hs
        exact hhead (congrArg List.head? hopen)

theorem parses_braces_iff (hapart : ¬ OuterBracesApart (.symbol .openBrace :: ts ++
      [.symbol .closeBrace])) :
    Parses (.symbol .openBrace :: ts ++ [.symbol .closeBrace]) ↔ Parses ts := by
  constructor
  · rintro ⟨ls, e, hls, he⟩
    obtain ⟨front, back, rfl, hfront, hback⟩ := List.map_eq_append_iff.mp hls
    obtain ⟨opening, ms, rfl, hopening, rfl⟩ := List.map_eq_cons_iff.mp hfront
    obtain ⟨closing, rfl, -⟩ := List.map_eq_singleton_iff.mp hback
    refine ⟨ms, e, rfl, he.inside rfl hopening fun hn => hapart ⟨rfl, ?_, ?_⟩⟩
    · rw [List.getLast?_concat]
    · rwa [hls] at hn
  · rintro ⟨ls, e, rfl, he⟩
    have hgroup : Derives .operand
        (⟨.symbol .openBrace, 0, 0⟩ :: ls ++ [⟨.symbol .closeBrace, 0, 0⟩]) e :=
      .group (show (Symbol.openBrace, Symbol.closeBrace) ∈ groupTable by decide) rfl he rfl
    exact ⟨_, e, by simp, hgroup.choice_of_operand⟩

/-- A text is an expression when it is evaluated just if it is one as it stands. -/
theorem isExpression_normalize_iff (h : Upright source) :
    IsExpression (normalize source) ↔ IsExpression (trim source) := by
  obtain ⟨a, b, hsource, -, -⟩ := trim_eq source
  have hbreak : ¬ HasEscapedBreak (trim source) := fun hbreak => h.breaks
    (hbreak.trans ⟨a, b, by rw [List.append_assoc, ← hsource]⟩)
  by_cases hwrapped : ∃ inner, trim source = '\x7b' :: (inner ++ ['\x7d'])
  · obtain ⟨inner, hinner⟩ := hwrapped
    have hinside : ¬ HasEscapedBreak (trim inner) := by
      obtain ⟨x, y, hxy, -, -⟩ := trim_eq inner
      refine fun hb => hbreak (hb.trans ⟨'\x7b' :: x, y ++ ['\x7d'], ?_⟩)
      rw [hinner]
      simpa using congrArg (· ++ ['\x7d']) hxy.symm
    have hunwrap : unwrapBraces ('\x7b' :: (inner ++ ['\x7d'])) = inner := by
      simp [unwrapBraces]
    rw [normalize_eq, hinner, hunwrap, isExpression_map_lineBlank_iff hinside]
    simp only [isExpression_iff, Lexes.trim_iff (h.blanks inner hinner), Lexes.braces_iff]
    have hapart := h.apart
    rw [hinner] at hapart
    constructor
    · rintro ⟨us, hus, hparses⟩
      exact ⟨_, ⟨us, rfl, hus⟩, (parses_braces_iff (hapart _ (Lexes.braces_iff.mpr ⟨us, rfl, hus⟩))).mpr
        hparses⟩
    · rintro ⟨_, ⟨us, rfl, hus⟩, hparses⟩
      exact ⟨us, hus, (parses_braces_iff (hapart _ (Lexes.braces_iff.mpr ⟨us, rfl, hus⟩))).mp hparses⟩
  · have hbare : unwrapBraces (trim source) = trim source := by
      unfold unwrapBraces
      split
      · rename_i inner heq
        rw [if_neg]
        intro hlast
        exact hwrapped ⟨_, by rw [heq, List.dropLast_append_getLast? _ hlast]⟩
      · rfl
    rw [normalize_eq, hbare, trim_trim, isExpression_map_lineBlank_iff hbreak]

end LiveMarkup
