import LiveMarkup.Proofs.Expr.Groups
import LiveMarkup.Proofs.Expr.Normalized

/-!
# What normalizing leaves of the meaning

A text that is an expression may be wrapped in braces and written in several lines, and still means
the same when it is evaluated (`evaluate_eq_eval_iff`).  It does not if it starts with one pair of
braces and ends with another: then what is left is no expression, and evaluation fails.
-/

namespace LiveMarkup

open Text

theorem lexes_tokenize {source : List Char} {ls : List Lexeme} (h : tokenize source = .ok ls) :
    Lexes source (ls.map Lexeme.token) :=
  lexes_iff_tokenize.mpr ⟨ls, h, rfl⟩

/-- The text that is evaluated has the tokens of an expression, and so it means what the expression
means. -/
theorem evaluate_of_lexes {source : List Char} {ls : List Lexeme} {e : Expr}
    (hlexes : Lexes (normalize source) (ls.map Lexeme.token)) (he : Derives .choice ls e)
    (scope : Scope) : evaluate false scope source = e.eval scope := by
  obtain ⟨ls', hls', htokens⟩ := lexes_iff_tokenize.mp hlexes
  obtain ⟨e', he', heval⟩ := he.respan htokens
  have hparse : parseExpr (normalize source) = .ok e' := by
    rw [parseExpr, hls', ok_bind]
    exact parseTokens_eq_ok_iff.mpr he'
  calc evaluate false scope source = (do (← parseExpr (normalize source)).eval scope) := rfl
    _ = e.eval scope := by rw [hparse, ok_bind, heval]

/-- Tokens with unmatched braces are no expression, and it is their text that is wrong. -/
theorem evaluate_of_not_balanced {source : List Char} {ts : List Token}
    (hlexes : Lexes (normalize source) ts) (hts : ¬ Balanced ts) (scope : Scope) :
    ∃ err, evaluate false scope source = .error err ∧ err.isSyntactic = true := by
  obtain ⟨ls, hls, rfl⟩ := lexes_iff_tokenize.mp hlexes
  have hparse : parseExpr (normalize source) = parseTokens (byteLength (normalize source)) ls := by
    rw [parseExpr, hls, ok_bind]
  rcases hp : parseTokens (byteLength (normalize source)) ls with err | e
  · refine ⟨err, ?_, ?_⟩
    · calc evaluate false scope source = (do (← parseExpr (normalize source)).eval scope) := rfl
        _ = .error err := by rw [hparse, hp]; rfl
    · rcases ls with _ | ⟨t, ls⟩
      · cases hp
        rfl
      · have herr := isUnexpected_of_parseTokens (List.cons_ne_nil t ls) hp
        cases err <;> first | rfl | cases herr
  · exact absurd (parseTokens_eq_ok_iff.mp hp).balanced hts

theorem exists_inside_of_ends {ts : List Token} (hfirst : ts.head? = some (.symbol .openBrace))
    (hlast : ts.getLast? = some (.symbol .closeBrace)) :
    ∃ us, ts = .symbol .openBrace :: us ++ [.symbol .closeBrace] := by
  obtain ⟨rest, rfl⟩ := List.head?_eq_some_iff.mp hfirst
  rcases List.eq_nil_or_concat rest with rfl | ⟨us, t, rfl⟩
  · cases hlast
  · rw [List.concat_eq_append, ← List.cons_append, List.getLast?_concat] at hlast
    obtain rfl := Option.some.inj hlast
    exact ⟨us, by rw [List.concat_eq_append, List.cons_append]⟩

/-- An expression means the same when its text is evaluated, unless the text starts with one pair of
braces and ends with another. -/
theorem evaluate_eq_eval_iff {source : List Char} {ls : List Lexeme} {e : Expr}
    (hls : tokenize source = .ok ls) (he : parseExpr source = .ok e)
    (hlines : ∀ spelling, .string spelling ∈ ls.map Lexeme.token →
      '\n' ∉ spelling.toList ∧ '\r' ∉ spelling.toList)
    (scope : Scope) :
    evaluate false scope source = e.eval scope ↔ ¬ OuterBracesApart (ls.map Lexeme.token) := by
  have hderives : Derives .choice ls e := by
    rw [parseExpr, hls, ok_bind] at he
    exact parseTokens_eq_ok_iff.mp he
  have hkept : ∀ spelling, .string spelling ∈ ls.map Lexeme.token →
      spelling.toList.map lineBlank = spelling.toList := by
    intro spelling hmem
    obtain ⟨hn, hr⟩ := hlines spelling hmem
    have hsame : ∀ c ∈ spelling.toList, lineBlank c = c := by
      intro c hc
      rw [lineBlank, if_neg]
      simp only [Bool.or_eq_true, decide_eq_true_eq]
      rintro (rfl | rfl)
      · exact hn hc
      · exact hr hc
    rw [List.map_congr_left hsame, List.map_id']
  rcases (lexes_tokenize hls).normalize hkept with ⟨us, hus, hlexes⟩ | ⟨hbare, hlexes⟩
  · by_cases hapart : OuterBracesApart (ls.map Lexeme.token)
    · refine iff_of_false (fun heq => ?_) (not_not.mpr hapart)
      rw [hus] at hapart
      obtain ⟨err, herr, hsyntactic⟩ :=
        evaluate_of_not_balanced hlexes (not_balanced_inside hapart) scope
      rw [notSyntactic_eval scope e err (heq.symm.trans herr)] at hsyntactic
      cases hsyntactic
    · refine iff_of_true ?_ hapart
      obtain ⟨front, back, rfl, hfront, hback⟩ := List.map_eq_append_iff.mp hus
      obtain ⟨opening, ms, rfl, hopening, rfl⟩ := List.map_eq_cons_iff.mp hfront
      obtain ⟨closing, rfl, -⟩ := List.map_eq_singleton_iff.mp hback
      refine evaluate_of_lexes hlexes (hderives.inside rfl hopening fun hn => hapart ⟨?_, ?_, hn⟩) scope
      · rw [hus]
        rfl
      · rw [hus, List.getLast?_concat]
  · refine iff_of_true (evaluate_of_lexes hlexes hderives scope) ?_
    rintro ⟨hfirst, hlast, -⟩
    obtain ⟨us, hus⟩ := exists_inside_of_ends hfirst hlast
    exact hbare us hus

/-- The tokens of `{{a}+b}`. -/
def nestedGroupTokens : List Lexeme :=
  [⟨.symbol .openBrace, 0, 1⟩, ⟨.symbol .openBrace, 1, 2⟩, ⟨.ident "a", 2, 3⟩,
    ⟨.symbol .closeBrace, 3, 4⟩, ⟨.symbol .plus, 4, 5⟩, ⟨.ident "b", 5, 6⟩,
    ⟨.symbol .closeBrace, 6, 7⟩]

/-- The tree of `{{a}+b}`. -/
def nestedGroup : Expr :=
  .binary .add (.ident "a" ⟨2, 3⟩) (.ident "b" ⟨5, 6⟩) ⟨1, 6⟩

theorem evaluate_eq_eval_iff_nestedGroup :
    tokenize "\x7b\x7ba\x7d+b\x7d".toList = .ok nestedGroupTokens ∧
      parseExpr "\x7b\x7ba\x7d+b\x7d".toList = .ok nestedGroup ∧
      (∀ spelling, .string spelling ∈ nestedGroupTokens.map Lexeme.token →
        '\n' ∉ spelling.toList ∧ '\r' ∉ spelling.toList) ∧
      ¬ OuterBracesApart (nestedGroupTokens.map Lexeme.token) ∧
      ∀ scope, evaluate false scope "\x7b\x7ba\x7d+b\x7d".toList = nestedGroup.eval scope := by
  have hls : tokenize "\x7b\x7ba\x7d+b\x7d".toList = .ok nestedGroupTokens := by cbv
  have he : parseExpr "\x7b\x7ba\x7d+b\x7d".toList = .ok nestedGroup := by cbv
  have hlines : ∀ spelling, .string spelling ∈ nestedGroupTokens.map Lexeme.token →
      '\n' ∉ spelling.toList ∧ '\r' ∉ spelling.toList := by
    intro spelling hmem
    simp [nestedGroupTokens] at hmem
  have hone : ¬ OuterBracesApart (nestedGroupTokens.map Lexeme.token) := by decide
  exact ⟨hls, he, hlines, hone, fun scope => (evaluate_eq_eval_iff hls he hlines scope).mpr hone⟩

/-- The bindings of `a` and `b` to two strings. -/
def twoStrings : Scope :=
  .ofBindings [("a", .string "x"), ("b", .string "y")]

/-- The tree of `{a}+{b}`. -/
def twoGroups : Expr :=
  .binary .add (.ident "a" ⟨1, 2⟩) (.ident "b" ⟨5, 6⟩) ⟨0, 7⟩

/-- The outer braces of two groups are taken for one pair. -/
theorem evaluate_fails_at_two_groups :
    parseExpr "\x7ba\x7d+\x7bb\x7d".toList = .ok twoGroups ∧
      twoGroups.eval twoStrings = .ok (.string "xy") ∧
      evaluate false twoStrings "\x7ba\x7d+\x7bb\x7d".toList =
        .error (.unexpectedToken 1 .endOfExpression (.symbol .closeBrace)) := by
  refine ⟨by cbv, by cbv, by cbv⟩

end LiveMarkup
