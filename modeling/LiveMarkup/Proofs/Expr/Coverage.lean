import LiveMarkup.Proofs.Expr.Variables

/-!
# The names found in a text cover its expression

Every name that the tree of an expression looks up is found in the text that the tree was read from,
unless it is one of those that are passed over (`mem_expressionVars_of_mem_identifiers`).  As the
value depends on these names alone, scopes that agree on the names found in the text give the same
value or the same error (`expressionVars_covers`).
-/

namespace LiveMarkup

open Text

/-- The names of the tokens that a text is read as are words of the text. -/
theorem Lexed.mem_wordRuns_mask {source : List Char} {ts : List Lexeme} (h : Lexed source ts)
    (hts : ts.IsChain Apart) {t : Lexeme} (ht : t ∈ ts) {x : String} (hx : t.token = .ident x)
    (hword : ∀ c ∈ x.toList, isWord c = true) (hx0 : x.toList ≠ []) :
    x.toList ∈ wordRuns (mask source) := by
  have hnil : WordFreeStart [] := fun c hc => nomatch hc
  obtain ⟨a, b, hmask, ha, hb, -⟩ := h.word hts ht hx hnil
  rw [List.append_nil] at hmask
  rw [hmask]
  exact mem_wordRuns hx0 hword ha hb

theorem mem_expressionVars_of_mem_identifiers {source : List Char} {e : Expr}
    (he : parseExpr source = .ok e) {x : String} (hx : x ∈ e.identifiers)
    (htracked : isTracked x.toList = true) : x ∈ expressionVars source := by
  obtain ⟨ts, hts, hp⟩ := bind_eq_ok_iff.mp he
  obtain ⟨hapart, hnames⟩ := parseTokens_takes hp
  obtain ⟨t, ht, hident⟩ := hnames x (mem_distinct.mp hx)
  have hlexed : Lexed source ts := lexed_of_lexFrom (Nat.lt_succ_self _) hts
  exact hlexed.mem_expressionVars ht hident htracked (hlexed.mem_wordRuns_mask hapart ht hident)

/-- The names found in the text of an expression are all that it looks up, and decide what it
evaluates to. -/
theorem expressionVars_covers {source : List Char} {e : Expr} (he : parseExpr source = .ok e)
    (hnames : ∀ x ∈ e.identifiers, '$' ∉ x.toList ∧ startsWith internalStart x.toList = false) :
    (∀ x ∈ e.identifiers, x ∈ expressionVars source) ∧
      ∀ s s' : Scope, (∀ x ∈ expressionVars source, s.find? x = s'.find? x) →
        e.eval s = e.eval s' := by
  have hcover : ∀ x ∈ e.identifiers, x ∈ expressionVars source := by
    intro x hx
    have htracked : isTracked x.toList = true := by
      rw [isTracked, (hnames x hx).2, Bool.not_false, Bool.and_true, decide_eq_true_eq]
      exact (hnames x hx).1
    exact mem_expressionVars_of_mem_identifiers he hx htracked
  refine ⟨hcover, fun s s' hagree => Expr.eval_congr fun x hx => ?_⟩
  exact hagree x (hcover x (mem_distinct.mpr hx))

/-- The tree of `a.b=="x"?c:d`. -/
def guardedMember : Expr :=
  .conditional
    (.binary .equal (.member (.ident "a" ⟨0, 1⟩) "b" ⟨0, 3⟩) (.literal (.string "x") ⟨5, 8⟩) ⟨0, 8⟩)
    (.ident "c" ⟨9, 10⟩) (.ident "d" ⟨11, 12⟩) ⟨0, 12⟩

theorem expressionVars_covers_guardedMember :
    parseExpr "a.b==\"x\"?c:d".toList = .ok guardedMember ∧
      guardedMember.identifiers = ["a", "c", "d"] ∧
      (∀ x ∈ guardedMember.identifiers,
        '$' ∉ x.toList ∧ startsWith internalStart x.toList = false) ∧
      (∀ x ∈ guardedMember.identifiers, x ∈ expressionVars "a.b==\"x\"?c:d".toList) ∧
      ∀ s s' : Scope,
        (∀ x ∈ expressionVars "a.b==\"x\"?c:d".toList, s.find? x = s'.find? x) →
          guardedMember.eval s = guardedMember.eval s' := by
  have hparse : parseExpr "a.b==\"x\"?c:d".toList = .ok guardedMember := by cbv
  have hnames : guardedMember.identifiers = ["a", "c", "d"] := by decide
  have htracked : ∀ x ∈ guardedMember.identifiers,
      '$' ∉ x.toList ∧ startsWith internalStart x.toList = false := by
    rw [hnames]
    decide
  exact ⟨hparse, hnames, htracked, expressionVars_covers hparse htracked⟩

end LiveMarkup
