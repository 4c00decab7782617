import Mathlib
import LiveMarkup.Proofs.Expr.Grammar

/-!
# What is an expression

The parsers accept just what the grammar derives (`parseTokens_eq_ok_iff`), and so no tokens have two
trees.  A parser that goes round in a loop does what a left-recursive rule says: to read an operand
and then go on is the same as to go on with the tree of all that was read (`Recognised`).

The fuel is enough for any tokens: more of it changes nothing (`parsersSettle`), so what a parser
returns with much fuel is what it returns.
-/

namespace LiveMarkup

/-- Whether an error tells of a token that is not wanted, or of the end. -/
def ExprError.isUnexpected : ExprError → Bool
  | unexpectedToken .. | unexpectedEnd _ => true
  | _ => false

/-! ## Enough fuel -/

/-- More fuel changes nothing, and what fails tells of a token or the end. -/
def Settles {α : Type} (now next : Except ExprError α) : Prop :=
  next = now ∧ ∀ err, now = .error err → err.isUnexpected = true

section

variable {α β : Type} {x x' : Except ExprError α} {f g : α → Except ExprError β} {size fuel : Nat}
  {s : Symbol} {ts rest : List Lexeme} {e : Expr}

theorem Settles.ok (a : α) : Settles (.ok a) (.ok a) :=
  ⟨rfl, fun _ h => by cases h⟩

theorem Settles.unexpected {err : ExprError} (h : err.isUnexpected = true) :
    Settles (α := α) (.error err) (.error err) :=
  ⟨rfl, fun _ he => by cases he; exact h⟩

theorem Settles.bind (h : Settles x x') (hfg : ∀ a, x = .ok a → Settles (f a) (g a)) :
    Settles (x >>= f) (x' >>= g) := by
  obtain ⟨rfl, herr⟩ := h
  rcases x' with err | a
  · exact .unexpected (herr err rfl)
  · exact hfg a rfl

theorem settles_expect : Settles (expect size s ts) (expect size s ts) := by
  refine ⟨rfl, fun err h => ?_⟩
  rcases ts with _ | ⟨t, ts⟩
  · cases h
    rfl
  · simp only [expect] at h
    split_ifs at h
    cases h
    rfl

theorem settles_expectProperty : Settles (expectProperty size ts) (expectProperty size ts) := by
  refine ⟨rfl, fun err h => ?_⟩
  rcases ts with _ | ⟨t, ts⟩
  · cases h
    rfl
  · simp only [expectProperty] at h
    split at h <;> cases h
    rfl

/-- How much fuel each parser needs. -/
structure ParsersSettle (size fuel : Nat) : Prop where
  choice : ∀ {ts}, 12 * ts.length + 12 ≤ fuel →
    Settles (parseChoice size fuel ts) (parseChoice size (fuel + 1) ts)
  level : ∀ {n ts}, n ≤ operatorTable.length → 12 * ts.length + 11 ≤ fuel + n →
    Settles (parseLevel size fuel n ts) (parseLevel size (fuel + 1) n ts)
  operators : ∀ {n start left stop ts}, n < operatorTable.length → 12 * ts.length + 1 ≤ fuel →
    Settles (parseOperators size fuel n start left stop ts)
      (parseOperators size (fuel + 1) n start left stop ts)
  unary : ∀ {ts}, 12 * ts.length + 3 ≤ fuel →
    Settles (parseUnary size fuel ts) (parseUnary size (fuel + 1) ts)
  access : ∀ {ts}, 12 * ts.length + 2 ≤ fuel →
    Settles (parseAccess size fuel ts) (parseAccess size (fuel + 1) ts)
  accesses : ∀ {start left stop ts}, 12 * ts.length + 1 ≤ fuel →
    Settles (parseAccesses size fuel start left stop ts)
      (parseAccesses size (fuel + 1) start left stop ts)
  operand : ∀ {ts}, 12 * ts.length + 1 ≤ fuel →
    Settles (parseOperand size fuel ts) (parseOperand size (fuel + 1) ts)

theorem Reads.length_le {c : Category} {stop : Nat} (h : Reads c ts rest e stop) :
    rest.length < ts.length := by
  obtain ⟨used, rfl, hd, -⟩ := h
  have := List.length_pos_of_ne_nil hd.ne_nil
  rw [List.length_append]
  omega

theorem length_of_expect {stop : Nat} (h : expect size s ts = .ok (stop, rest)) :
    rest.length < ts.length := by
  obtain ⟨t, -, rfl, -⟩ := expect_eq_ok h
  exact Nat.lt_succ_self _

theorem length_of_expectProperty {stop : Nat} {name : String}
    (h : expectProperty size ts = .ok (name, stop, rest)) : rest.length < ts.length := by
  obtain ⟨t, -, rfl, -⟩ := propertyName?_of_expectProperty h
  exact Nat.lt_succ_self _

namespace ParsersSettle

theorem choice_succ (ih : ParsersSettle size fuel) (hf : 12 * ts.length + 12 ≤ fuel + 1) :
    Settles (parseChoice size (fuel + 1) ts) (parseChoice size (fuel + 1 + 1) ts) := by
  rw [parseChoice, parseChoice]
  refine (ih.level (Nat.zero_le _) (by omega)).bind fun r ht => ?_
  obtain ⟨test, stop, rest⟩ := r
  have h1 := ((parsersDerive size fuel).level (Nat.zero_le _) ht).length_le
  dsimp only
  split
  · rename_i rest
    rw [List.length_cons] at h1
    refine (ih.choice (by omega)).bind fun r ha => ?_
    obtain ⟨a, _, rest⟩ := r
    have h2 := ((parsersDerive size fuel).choice ha).length_le
    refine settles_expect.bind fun r hx => ?_
    obtain ⟨_, rest⟩ := r
    have h3 := length_of_expect hx
    dsimp only at h2 h3 ⊢
    exact (ih.choice (by omega)).bind fun _ _ => .ok _
  · exact .ok _

theorem level_succ (ih : ParsersSettle size fuel) {n : Nat} (hn : n ≤ operatorTable.length)
    (hf : 12 * ts.length + 11 ≤ fuel + 1 + n) :
    Settles (parseLevel size (fuel + 1) n ts) (parseLevel size (fuel + 1 + 1) n ts) := by
  have hlevels : operatorTable.length = 7 := rfl
  rw [parseLevel, parseLevel]
  split
  · rename_i hlt
    refine (ih.level hlt (by omega)).bind fun r hl => ?_
    obtain ⟨left, stop, rest⟩ := r
    have h1 := ((parsersDerive size fuel).level hlt hl).length_le
    exact ih.operators hlt (by omega)
  · rename_i hlt
    have hn' : n = 7 := Nat.le_antisymm hn (Nat.le_of_not_lt hlt)
    exact ih.unary (by omega)

theorem operators_succ (ih : ParsersSettle size fuel) {n start stop : Nat} {left : Expr}
    (hn : n < operatorTable.length) (hf : 12 * ts.length + 1 ≤ fuel + 1) :
    Settles (parseOperators size (fuel + 1) n start left stop ts)
      (parseOperators size (fuel + 1 + 1) n start left stop ts) := by
  rw [parseOperators, parseOperators]
  split
  · exact .ok _
  · rename_i op ts' hop
    obtain ⟨t, s, row, rfl, -⟩ := operatorAt?_eq_some_iff.mp hop
    rw [List.length_cons] at hf
    refine (ih.level hn (by omega)).bind fun r hr => ?_
    obtain ⟨right, stop, rest⟩ := r
    have h1 := ((parsersDerive size fuel).level hn hr).length_le
    exact ih.operators hn (by omega)

theorem unary_succ (ih : ParsersSettle size fuel) (hf : 12 * ts.length + 3 ≤ fuel + 1) :
    Settles (parseUnary size (fuel + 1) ts) (parseUnary size (fuel + 1 + 1) ts) := by
  have hnone : Settles (parseAccess size fuel ts) (parseAccess size (fuel + 1) ts) :=
    ih.access (by omega)
  unfold parseUnary
  simp only
  split
  · split
    · rename_i rest _ op _
      rw [List.length_cons] at hf
      exact (ih.unary (by omega)).bind fun _ _ => .ok _
    · exact hnone
  · exact hnone

theorem access_succ (ih : ParsersSettle size fuel) (hf : 12 * ts.length + 2 ≤ fuel + 1) :
    Settles (parseAccess size (fuel + 1) ts) (parseAccess size (fuel + 1 + 1) ts) := by
  rw [parseAccess, parseAccess]
  refine (ih.operand (by omega)).bind fun r ho => ?_
  obtain ⟨e, stop, rest⟩ := r
  have h1 := ((parsersDerive size fuel).operand ho).length_le
  exact ih.accesses (by omega)

theorem accesses_succ (ih : ParsersSettle size fuel) {start stop : Nat} {left : Expr}
    (hf : 12 * ts.length + 1 ≤ fuel + 1) :
    Settles (parseAccesses size (fuel + 1) start left stop ts)
      (parseAccesses size (fuel + 1 + 1) start left stop ts) := by
  unfold parseAccesses
  split
  · rename_i rest
    rw [List.length_cons] at hf
    refine settles_expectProperty.bind fun r hp => ?_
    obtain ⟨name, stop, rest⟩ := r
    have h1 := length_of_expectProperty hp
    exact ih.accesses (by omega)
  · rename_i rest
    rw [List.length_cons] at hf
    refine (ih.choice (by omega)).bind fun r hk => ?_
    obtain ⟨key, _, rest⟩ := r
    have h1 := ((parsersDerive size fuel).choice hk).length_le
    refine settles_expect.bind fun r hx => ?_
    obtain ⟨stop, rest⟩ := r
    have h2 := length_of_expect hx
    exact ih.accesses (by omega)
  · exact .ok _

theorem operand_succ (ih : ParsersSettle size fuel) (hf : 12 * ts.length + 1 ≤ fuel + 1) :
    Settles (parseOperand size (fuel + 1) ts) (parseOperand size (fuel + 1 + 1) ts) := by
  rcases ts with _ | ⟨⟨token, start, stop⟩, ts⟩
  · rw [parseOperand, parseOperand]
    exact .unexpected rfl
  · rw [List.length_cons] at hf
    unfold parseOperand
    split
    · exact .ok _
    · exact .ok _
    · exact .ok _
    · exact .ok _
    · exact (ih.choice (by omega)).bind fun _ _ => settles_expect.bind fun _ _ => .ok _
    · exact (ih.choice (by omega)).bind fun _ _ => settles_expect.bind fun _ _ => .ok _
    · exact .unexpected rfl

end ParsersSettle

theorem parsersSettle (size : Nat) : ∀ fuel, ParsersSettle size fuel
  | 0 => by
    have hlevels : operatorTable.length = 7 := rfl
    constructor <;> intros <;> omega
  | fuel + 1 =>
    have ih := parsersSettle size fuel
    ⟨ih.choice_succ, ih.level_succ, ih.operators_succ, ih.unary_succ, ih.access_succ,
      ih.accesses_succ, ih.operand_succ⟩

end

/-! ## With much fuel -/

/-- What comes of a fuelled computation with all fuels that are large enough. -/
def Comes {α : Type} (f : Nat → α) (a : α) : Prop :=
  ∃ m, ∀ fuel, m ≤ fuel → f fuel = a

section

variable {α β γ : Type} {f : Nat → α} {g : Nat → β} {k : Nat → γ} {a a' : α} {b : β} {c : γ}

theorem Comes.unique (h : Comes f a) (h' : Comes f a') : a = a' := by
  obtain ⟨m, hm⟩ := h
  obtain ⟨m', hm'⟩ := h'
  rw [← hm (m + m') (by omega), ← hm' (m + m') (by omega)]

theorem Comes.of_succ (h : ∀ fuel, k (fuel + 1) = c) : Comes k c :=
  ⟨1, fun fuel hf => by obtain ⟨n, rfl⟩ := Nat.exists_eq_add_of_le' hf; exact h n⟩

theorem Comes.succ (h : Comes f a) (hk : ∀ fuel, f fuel = a → k (fuel + 1) = c) : Comes k c := by
  obtain ⟨m, hm⟩ := h
  refine ⟨m + 1, fun fuel hf => ?_⟩
  obtain ⟨n, rfl⟩ := Nat.exists_eq_add_of_le' (show 1 ≤ fuel by omega)
  exact hk n (hm n (by omega))

theorem Comes.and (h : Comes f a) (h' : Comes g b) : Comes (fun fuel => (f fuel, g fuel)) (a, b) := by
  obtain ⟨m, hm⟩ := h
  obtain ⟨m', hm'⟩ := h'
  exact ⟨m + m', fun fuel hf => Prod.ext (hm fuel (by omega)) (hm' fuel (by omega))⟩

theorem Comes.succ₂ (h : Comes f a) (h' : Comes g b)
    (hk : ∀ fuel, f fuel = a → g fuel = b → k (fuel + 1) = c) : Comes k c :=
  (h.and h').succ fun fuel heq => hk fuel (Prod.mk.inj heq).1 (Prod.mk.inj heq).2

end

/-! ## Where an expression ends -/

/-- No access goes on here, and no operator of the given level or a tighter one. -/
structure Ends (n : Nat) (rest : List Lexeme) : Prop where
  access : ∀ t ∈ rest.head?, t.token ≠ .symbol .dot ∧ t.token ≠ .symbol .openBracket
  operator : ∀ m, n ≤ m → operatorAt? m rest = none

/-- An expression that is not part of an operation or an access ends here. -/
structure Closes (rest : List Lexeme) : Prop extends Ends 0 rest where
  question : ∀ t ∈ rest.head?, t.token ≠ .symbol .question

section

variable {size n m : Nat} {ts us rest : List Lexeme} {t : Lexeme} {c : Category} {e l : Expr}
  {s : Symbol} {op : BinaryOp} {r : Parsed} {start stop : Nat}

theorem closes_nil : Closes [] :=
  ⟨⟨fun _ h => (Option.not_mem_none _ h).elim, fun _ _ => rfl⟩, fun _ h => (Option.not_mem_none _ h).elim⟩

/-- The symbols after which an expression inside goes on are the ones that end it. -/
theorem closes_symbol (ht : t.token = .symbol s)
    (hs : s ∈ [.closeParen, .closeBracket, .closeBrace, .colon]) : Closes (t :: rest) := by
  obtain ⟨token, start, stop⟩ := t
  obtain rfl : token = .symbol s := ht
  have hnone : BinaryOp.ofSymbol? s = none ∧ s ≠ .dot ∧ s ≠ .openBracket ∧ s ≠ .question := by
    revert s
    decide
  refine ⟨⟨fun t ht => ?_, fun m _ => by rw [operatorAt?, hnone.1]⟩, fun t ht => ?_⟩
  all_goals
    cases ht
    simp [hnone]

theorem ends_question (ht : t.token = .symbol .question) : Ends 0 (t :: rest) := by
  obtain ⟨token, start, stop⟩ := t
  obtain rfl : token = .symbol .question := ht
  exact ⟨fun t ht => by cases ht; simp, fun m _ => rfl⟩

/-- What is tighter than an operator ends before it. -/
theorem ends_operator (ht : t.token = .symbol s) {row : List (Symbol × BinaryOp)}
    (hrow : operatorTable[n]? = some row) (hmem : (s, op) ∈ row) : Ends (n + 1) (t :: rest) := by
  obtain ⟨token, start, stop⟩ := t
  obtain rfl : token = .symbol s := ht
  obtain ⟨hop, hlevel⟩ := ofSymbol?_eq_some_iff.mpr ⟨row, hrow, hmem⟩
  refine ⟨fun t ht => ?_, fun m hm => ?_⟩
  · cases ht
    constructor <;> intro h <;> cases h <;> cases hop
  · rw [operatorAt?, hop]
    exact if_neg (by omega)

theorem Ends.mono (h : Ends n rest) (hnm : n ≤ m) : Ends m rest :=
  ⟨h.access, fun k hk => h.operator k (hnm.trans hk)⟩

/-! ## Rules of the parsers -/

theorem comes_operators_none (h : operatorAt? n rest = none) :
    Comes (parseOperators size · n start l stop rest) (.ok (l, stop, rest)) :=
  .of_succ fun fuel => by rw [parseOperators, h]

theorem comes_accesses_none (h : ∀ t ∈ rest.head?, t.token ≠ .symbol .dot ∧ t.token ≠ .symbol .openBracket) :
    Comes (parseAccesses size · start l stop rest) (.ok (l, stop, rest)) :=
  .of_succ fun fuel => by
    unfold parseAccesses
    split
    · exact absurd rfl (h _ rfl).1
    · exact absurd rfl (h _ rfl).2
    · rfl

/-! ## Derived tokens are read -/

/-- A parser reads tokens as an expression of a category.  For operations of a level and for accesses,
which may go on after these tokens, it does what its loop does with the tree. -/
def Recognised (size : Nat) : Category → List Lexeme → Expr → Prop
  | .choice, ts, e => ∀ rest, Closes rest →
    Comes (parseChoice size · (ts ++ rest)) (.ok (e, lastByte ts, rest))
  | .level n, ts, e => ∀ rest r, Ends (n + 1) rest →
    Comes (parseOperators size · n (firstByte ts) e (lastByte ts) rest) r →
      Comes (parseLevel size · n (ts ++ rest)) r
  | .unary, ts, e => ∀ rest, Ends operatorTable.length rest →
    Comes (parseUnary size · (ts ++ rest)) (.ok (e, lastByte ts, rest))
  | .access, ts, e => ∀ rest r,
    Comes (parseAccesses size · (firstByte ts) e (lastByte ts) rest) r →
      Comes (parseAccess size · (ts ++ rest)) r
  | .operand, ts, e => ∀ rest,
    Comes (parseOperand size · (ts ++ rest)) (.ok (e, lastByte ts, rest))

theorem Recognised.level_ok (h : Recognised size (.level n) ts e) (hrest : Ends n rest) :
    Comes (parseLevel size · n (ts ++ rest)) (.ok (e, lastByte ts, rest)) :=
  h rest _ (hrest.mono n.le_succ) (comes_operators_none (hrest.operator n le_rfl))

theorem recognised_choice (h : Recognised size (.level 0) ts e) : Recognised size .choice ts e := by
  intro rest hrest
  refine (h.level_ok hrest.toEnds).succ fun fuel heq => ?_
  rw [parseChoice, heq, ok_bind]
  dsimp only
  split
  · exact absurd rfl (hrest.question _ rfl)
  · rfl

theorem recognised_conditional {as bs : List Lexeme} {test a b : Expr} {question colon : Lexeme}
    (hne : ts ≠ []) (hne' : bs ≠ [])
    (htest : Recognised size (.level 0) ts test) (hquestion : question.token = .symbol .question)
    (ha : Recognised size .choice as a) (hcolon : colon.token = .symbol .colon)
    (hb : Recognised size .choice bs b) :
    Recognised size .choice (ts ++ question :: as ++ colon :: bs)
      (.conditional test a b (spanOf (ts ++ question :: as ++ colon :: bs))) := by
  intro rest hrest
  obtain ⟨token, start, stop⟩ := question
  obtain rfl : token = .symbol .question := hquestion
  have hends : Ends 0 (⟨.symbol .question, start, stop⟩ :: (as ++ colon :: (bs ++ rest))) :=
    ends_question rfl
  have h1 := htest.level_ok hends
  have h2 := ha (colon :: (bs ++ rest)) (closes_symbol hcolon (by decide))
  have h3 := hb rest hrest
  have hsum : ts ++ ⟨.symbol .question, start, stop⟩ :: as ++ colon :: bs ++ rest =
      ts ++ ⟨.symbol .question, start, stop⟩ :: (as ++ colon :: (bs ++ rest)) := by simp
  rw [hsum]
  refine h1.succ₂ (h2.and h3) fun fuel heq heq' => ?_
  obtain ⟨heq1, heq2⟩ := Prod.mk.inj heq'
  rw [parseChoice, heq, ok_bind]
  dsimp only
  rw [heq1, ok_bind]
  dsimp only
  rw [expect, if_pos hcolon, ok_bind]
  dsimp only
  rw [heq2, ok_bind]
  simp [spanOf, startOf_append, hne, hne', pure, Except.pure]

theorem recognised_tighter (hne : ts ≠ []) (hn : n < operatorTable.length)
    (h : Recognised size (.level (n + 1)) ts e) : Recognised size (.level n) ts e := by
  intro rest r hrest hr
  refine (h.level_ok hrest).succ₂ hr fun fuel heq heq' => ?_
  have hlt : n < BinaryOp.levels := hn
  rw [parseLevel, if_pos hlt, heq, ok_bind]
  dsimp only
  rw [startOf_append hne, heq']

theorem recognised_binary {ls rs : List Lexeme} {l r : Expr} {row : List (Symbol × BinaryOp)} {o : Lexeme}
    (hne : ls ≠ []) (hne' : rs ≠ []) (hrow : operatorTable[n]? = some row) (hmem : (s, op) ∈ row)
    (hl : Recognised size (.level n) ls l) (ho : o.token = .symbol s)
    (hr : Recognised size (.level (n + 1)) rs r) :
    Recognised size (.level n) (ls ++ o :: rs) (.binary op l r (spanOf (ls ++ o :: rs))) := by
  intro rest res hrest hres
  rw [List.append_assoc]
  refine hl (o :: rs ++ rest) res (ends_operator ho hrow hmem) ?_
  have hop : operatorAt? n (o :: rs ++ rest) = some (op, rs ++ rest) :=
    operatorAt?_eq_some_iff.mpr ⟨o, s, row, rfl, ho, hrow, hmem⟩
  refine (hr.level_ok hrest).succ₂ hres fun fuel heq heq' => ?_
  rw [parseOperators, hop]
  dsimp only
  rw [heq, ok_bind, ← heq']
  simp [spanOf, hne, hne']

theorem recognised_level (h : Recognised size .unary ts e) :
    Recognised size (.level operatorTable.length) ts e := by
  intro rest r hrest hr
  -- there is no operator of this level, so nothing goes on
  have hnone : ∀ m, operatorTable.length ≤ m → operatorAt? m rest = none := fun m hm => by
    rcases hop : operatorAt? m rest with _ | ⟨op, rest'⟩
    · rfl
    · obtain ⟨_, _, row, -, -, hrow, -⟩ := operatorAt?_eq_some_iff.mp hop
      rw [List.getElem?_eq_none hm] at hrow
      cases hrow
  rw [hr.unique (comes_operators_none (hnone _ le_rfl))]
  refine (h rest ⟨hrest.access, hnone⟩).succ fun fuel heq => ?_
  rw [parseLevel, if_neg (show ¬ operatorTable.length < BinaryOp.levels from lt_irrefl 7), heq]

theorem recognised_unary {op : UnaryOp} {o : Lexeme} (hne : ts ≠ []) (hmem : (s, op) ∈ prefixTable)
    (ho : o.token = .symbol s) (h : Recognised size .unary ts e) :
    Recognised size .unary (o :: ts) (.unary op e (spanOf (o :: ts))) := by
  intro rest hrest
  obtain ⟨token, start, stop⟩ := o
  obtain rfl : token = .symbol s := ho
  refine (h rest hrest).succ fun fuel heq => ?_
  rw [List.cons_append]
  unfold parseUnary
  simp only
  rw [prefix_iff.mpr hmem]
  dsimp only
  rw [heq, ok_bind]
  simp [spanOf, firstByte, hne, pure, Except.pure]

/-- No symbol that opens a group is an operator, and what closes one ends an expression. -/
theorem group_symbols {s' : Symbol} (h : (s, s') ∈ groupTable) : UnaryOp.ofSymbol? s = none ∧
    s' ∈ [.closeParen, .closeBracket, .closeBrace, .colon] := by
  have table : ∀ g ∈ groupTable, UnaryOp.ofSymbol? g.1 = none ∧
    g.2 ∈ [.closeParen, .closeBracket, .closeBrace, .colon] := by decide
  exact table (s, s') h

/-- An expression without an operator before it starts with no symbol that is one. -/
theorem Derives.not_prefix (h : Derives c ts e) (hc : c = .access ∨ c = .operand) :
    ∃ t us, ts = t :: us ∧ ∀ s, t.token = .symbol s → UnaryOp.ofSymbol? s = none := by
  induction h with
  | member _ _ _ ih | index _ _ _ _ ih _ =>
    obtain ⟨t, us, rfl, ht⟩ := ih (.inl rfl)
    exact ⟨t, _, rfl, ht⟩
  | access _ ih => exact ih (.inr rfl)
  | literal ht => exact ⟨_, [], rfl, fun s hs => by rw [hs] at ht; cases ht⟩
  | ident ht => exact ⟨_, [], rfl, fun s hs => by rw [hs] at ht; cases ht⟩
  | @group _ _ s s' _ _ hmem ho _ _ _ =>
    refine ⟨_, _, rfl, fun s₁ hs₁ => ?_⟩
    obtain rfl : s = s₁ := Token.symbol.inj (ho.symm.trans hs₁)
    exact (group_symbols hmem).1
  | _ => rcases hc with hc | hc <;> cases hc

theorem recognised_noPrefix (hd : Derives .access ts e) (h : Recognised size .access ts e) :
    Recognised size .unary ts e := by
  intro rest hrest
  obtain ⟨⟨token, start, stop⟩, us, rfl, ht⟩ := hd.not_prefix (.inl rfl)
  refine (h rest _ (comes_accesses_none hrest.access)).succ fun fuel heq => ?_
  rcases token with _ | _ | _ | _ | s
  case symbol =>
    rw [List.cons_append, parseUnary, ht s rfl]
    exact heq
  all_goals
    rw [List.cons_append, parseUnary]
    · exact heq
    · intro s start stop rest h
      cases h

theorem recognised_member {name : String} {dot property : Lexeme} (hne : ts ≠ [])
    (h : Recognised size .access ts e) (hdot : dot.token = .symbol .dot)
    (hname : property.token.propertyName? = some name) :
    Recognised size .access (ts ++ [dot, property])
      (.member e name (spanOf (ts ++ [dot, property]))) := by
  intro rest r hr
  obtain ⟨token, start, stop⟩ := dot
  obtain rfl : token = .symbol .dot := hdot
  rw [List.append_assoc]
  refine h _ r (hr.succ fun fuel heq => ?_)
  have hexpect : expectProperty size (property :: rest) = .ok (name, property.stop, rest) := by
    unfold expectProperty
    rcases property with ⟨_ | _ | _ | _ | _, _, _⟩ <;> cases hname <;> rfl
  rw [List.cons_append, List.cons_append, List.nil_append]
  unfold parseAccesses
  simp only
  rw [hexpect, ok_bind, ← heq]
  simp [spanOf, hne, lastByte]

theorem recognised_index {ks : List Lexeme} {k : Expr} {opening closing : Lexeme} (hne : ts ≠ [])
    (h : Recognised size .access ts e) (ho : opening.token = .symbol .openBracket)
    (hk : Recognised size .choice ks k) (hc : closing.token = .symbol .closeBracket) :
    Recognised size .access (ts ++ opening :: ks ++ [closing])
      (.index e k (spanOf (ts ++ opening :: ks ++ [closing]))) := by
  intro rest r hr
  obtain ⟨token, start, stop⟩ := opening
  obtain rfl : token = .symbol .openBracket := ho
  have hsum : ts ++ ⟨.symbol .openBracket, start, stop⟩ :: ks ++ [closing] ++ rest =
      ts ++ ⟨.symbol .openBracket, start, stop⟩ :: (ks ++ closing :: rest) := by simp
  rw [hsum]
  refine h _ r ((hk (closing :: rest) (closes_symbol hc (by decide))).succ₂ hr fun fuel heq heq' => ?_)
  unfold parseAccesses
  simp only
  rw [heq, ok_bind]
  dsimp only
  rw [expect, if_pos hc, ok_bind, ← heq', lastByte_concat, spanOf, lastByte_concat, List.append_assoc,
    firstByte_append hne]

theorem recognised_access (hne : ts ≠ []) (h : Recognised size .operand ts e) :
    Recognised size .access ts e := by
  intro rest r hr
  refine (h rest).succ₂ hr fun fuel heq heq' => ?_
  rw [parseAccess, heq, ok_bind]
  dsimp only
  rw [startOf_append hne, heq']

theorem recognised_literal {value : Value} (h : t.token.literalValue? = some value) :
    Recognised size .operand [t] (.literal value (spanOf [t])) := by
  intro rest
  obtain ⟨token, start, stop⟩ := t
  refine .of_succ fun fuel => ?_
  rcases token with _ | _ | _ | _ | _ <;> cases h <;> rw [List.singleton_append, parseOperand] <;> rfl

theorem recognised_ident {name : String} (h : t.token = .ident name) :
    Recognised size .operand [t] (.ident name (spanOf [t])) := by
  intro rest
  obtain ⟨token, start, stop⟩ := t
  obtain rfl : token = .ident name := h
  exact .of_succ fun fuel => by rw [List.singleton_append, parseOperand]; rfl

theorem recognised_group {s' : Symbol} {opening closing : Lexeme} (hmem : (s, s') ∈ groupTable)
    (ho : opening.token = .symbol s) (h : Recognised size .choice ts e)
    (hc : closing.token = .symbol s') :
    Recognised size .operand (opening :: ts ++ [closing]) e := by
  intro rest
  obtain ⟨token, start, stop⟩ := opening
  obtain rfl : token = .symbol s := ho
  have hsum : ⟨.symbol s, start, stop⟩ :: ts ++ [closing] ++ rest =
      ⟨.symbol s, start, stop⟩ :: (ts ++ closing :: rest) := by simp
  rw [hsum, lastByte_concat]
  refine (h (closing :: rest) (closes_symbol hc (group_symbols hmem).2)).succ fun fuel heq => ?_
  simp only [groupTable, List.mem_cons, Prod.mk.injEq, List.not_mem_nil, or_false] at hmem
  rcases hmem with ⟨rfl, rfl⟩ | ⟨rfl, rfl⟩
  all_goals
    rw [parseOperand, heq, ok_bind]
    dsimp only
    rw [expect, if_pos hc, ok_bind]
    rfl

/-- Derived tokens are read by the parser of their category. -/
theorem Derives.recognised (h : Derives c ts e) : Recognised size c ts e := by
  induction h with
  | choice _ ih => exact recognised_choice ih
  | conditional ht hq _ hc hb iht iha ihb =>
    exact recognised_conditional ht.ne_nil hb.ne_nil iht hq iha hc ihb
  | tighter hn h ih => exact recognised_tighter h.ne_nil hn ih
  | binary hrow hmem hl ho hr ihl ihr =>
    exact recognised_binary hl.ne_nil hr.ne_nil hrow hmem ihl ho ihr
  | level _ ih => exact recognised_level ih
  | unary hmem ho h ih => exact recognised_unary h.ne_nil hmem ho ih
  | noPrefix h ih => exact recognised_noPrefix h ih
  | member h hdot hname ih => exact recognised_member h.ne_nil ih hdot hname
  | index h ho _ hc ih ihk => exact recognised_index h.ne_nil ih ho ihk hc
  | access h ih => exact recognised_access h.ne_nil ih
  | literal h => exact recognised_literal h
  | ident h => exact recognised_ident h
  | group hmem ho _ hc ih => exact recognised_group hmem ho ih hc

/-! ## Whole expressions -/

/-- With all fuel from what is needed on, the parser returns the same. -/
theorem comes_parseChoice (hm : 12 * ts.length + 12 ≤ m) :
    Comes (parseChoice size · ts) (parseChoice size m ts) := by
  refine ⟨m, fun fuel hf => ?_⟩
  induction fuel, hf using Nat.le_induction with
  | base => rfl
  | succ fuel hf ih => exact ((parsersSettle size fuel).choice (by omega)).1.trans ih

/-- Tokens are the tokens of an expression if and only if the grammar derives them. -/
theorem parseTokens_eq_ok_iff : parseTokens size ts = .ok e ↔ Derives .choice ts e := by
  refine ⟨derives_of_parseTokens, fun h => ?_⟩
  have hrecognised : Recognised size .choice ts e := h.recognised
  have hcomes := hrecognised [] closes_nil
  rw [List.append_nil] at hcomes
  have heq := (comes_parseChoice (Nat.le_refl (12 * (ts.length + 1)))).unique hcomes
  obtain ⟨t, us, rfl⟩ := List.exists_cons_of_ne_nil h.ne_nil
  rw [parseTokens, heq, ok_bind]
  · rfl
  · exact List.cons_ne_nil t us

theorem isUnexpected_of_parseTokens {err : ExprError} (hne : ts ≠ [])
    (h : parseTokens size ts = .error err) : err.isUnexpected = true := by
  obtain ⟨t, us, rfl⟩ := List.exists_cons_of_ne_nil hne
  have hchoice : Settles (parseChoice size (12 * ((t :: us).length + 1)) (t :: us))
      (parseChoice size (12 * ((t :: us).length + 1) + 1) (t :: us)) :=
    (parsersSettle size _).choice (by omega)
  rw [parseTokens] at h
  · rcases hp : parseChoice size (12 * ((t :: us).length + 1)) (t :: us) with err' | ⟨e, stop, rest⟩
    · rw [hp] at h
      cases h
      exact hchoice.2 err hp
    · rw [hp, ok_bind] at h
      rcases rest with _ | ⟨t', rest⟩ <;> cases h
      rfl
  · exact List.cons_ne_nil t us

/-- The parser accepts exactly the grammar: of a text that has tokens it returns the only tree that is
derived from them.  If there is none, it says that there are no tokens, or tells of a token that is
not wanted or of the end. -/
theorem parseExpr_accepts_grammar {source : List Char} {ts : List Lexeme}
    (h : tokenize source = .ok ts) :
    (∀ e, parseExpr source = .ok e ↔ Derives .choice ts e) ∧
      (∀ e e', Derives .choice ts e → Derives .choice ts e' → e = e') ∧
      (ts = [] → parseExpr source = .error .empty) ∧
      (ts ≠ [] → (¬ ∃ e, Derives .choice ts e) →
        (∃ pos expected found, parseExpr source = .error (.unexpectedToken pos expected found)) ∨
          ∃ pos, parseExpr source = .error (.unexpectedEnd pos)) := by
  have hparse : parseExpr source = parseTokens (Text.byteLength source) ts := by
    rw [parseExpr, h, ok_bind]
  rw [hparse]
  refine ⟨fun e => parseTokens_eq_ok_iff, fun e e' he he' => ?_, fun hnil => ?_, fun hne hnone => ?_⟩
  · have heq : parseTokens 0 ts = .ok e := parseTokens_eq_ok_iff.mpr he
    rw [parseTokens_eq_ok_iff.mpr he'] at heq
    exact (Except.ok.inj heq).symm
  · rw [hnil]
    rfl
  · rcases hp : parseTokens (Text.byteLength source) ts with err | e
    · have herr := isUnexpected_of_parseTokens hne hp
      cases err with
      | unexpectedToken pos expected found => exact .inl ⟨pos, expected, found, rfl⟩
      | unexpectedEnd pos => exact .inr ⟨pos, rfl⟩
      | _ => cases herr
    · exact absurd ⟨e, parseTokens_eq_ok_iff.mp hp⟩ hnone

/-- The tokens of `a-b?c:d`. -/
def choiceTokens : List Lexeme :=
  [⟨.ident "a", 0, 1⟩, ⟨.symbol .minus, 1, 2⟩, ⟨.ident "b", 2, 3⟩, ⟨.symbol .question, 3, 4⟩,
    ⟨.ident "c", 4, 5⟩, ⟨.symbol .colon, 5, 6⟩, ⟨.ident "d", 6, 7⟩]

theorem parseExpr_accepts_choice :
    tokenize "a-b?c:d".toList = .ok choiceTokens ∧
      (∀ e, parseExpr "a-b?c:d".toList = .ok e ↔ Derives .choice choiceTokens e) ∧
      (∀ e e', Derives .choice choiceTokens e → Derives .choice choiceTokens e' → e = e') ∧
      (choiceTokens = [] → parseExpr "a-b?c:d".toList = .error .empty) ∧
      (choiceTokens ≠ [] → (¬ ∃ e, Derives .choice choiceTokens e) →
        (∃ pos expected found,
          parseExpr "a-b?c:d".toList = .error (.unexpectedToken pos expected found)) ∨
          ∃ pos, parseExpr "a-b?c:d".toList = .error (.unexpectedEnd pos)) := by
  have h : tokenize "a-b?c:d".toList = .ok choiceTokens := by cbv
  exact ⟨h, parseExpr_accepts_grammar h⟩

/-- A choice is looser than a difference. -/
example : parseTokens 7 choiceTokens = .ok (.conditional
    (.binary .subtract (.ident "a" ⟨0, 1⟩) (.ident "b" ⟨2, 3⟩) ⟨0, 3⟩)
    (.ident "c" ⟨4, 5⟩) (.ident "d" ⟨6, 7⟩) ⟨0, 7⟩) := by cbv

end

end LiveMarkup
