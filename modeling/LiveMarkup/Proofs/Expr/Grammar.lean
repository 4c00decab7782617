import Mathlib
import LiveMarkup.Proofs.Expr.Parser

/-!
# The grammar of expressions

The tokens that make up an expression of a category, and the tree that they stand for
(`Derives`).  The categories go from the loosest to the tightest; operators of one level associate
to the left, and so the grammar is left-recursive, while the parsers go round in loops.  What a
parser returns is derived from the tokens that it takes (`parsersDerive`).
-/

namespace LiveMarkup

/-! ## Tokens -/

/-- The binary operators by level, from the loosest to the tightest. -/
def operatorTable : List (List (Symbol × BinaryOp)) := [
  [(.coalesce, .coalesce)],
  [(.or, .or)],
  [(.and, .and)],
  [(.identical, .identical), (.notIdentical, .notIdentical), (.equal, .equal),
    (.notEqual, .notEqual)],
  [(.lessEqual, .lessEqual), (.greaterEqual, .greaterEqual), (.less, .less),
    (.greater, .greater)],
  [(.plus, .add), (.minus, .subtract)],
  [(.star, .multiply), (.slash, .divide), (.percent, .remainder)]]

/-- The operators that stand before their operand. -/
def prefixTable : List (Symbol × UnaryOp) :=
  [(.bang, .not), (.minus, .negate), (.plus, .plus)]

/-- The symbols that group, each with the one that closes the group. -/
def groupTable : List (Symbol × Symbol) :=
  [(.openParen, .closeParen), (.openBrace, .closeBrace)]

/-- The value of a token that is a literal. -/
def Token.literalValue? : Token → Option Value
  | .reserved w => some w.value
  | .string spelling => some (.string (unquote spelling))
  | .number spelling => some (.number ((Decimal.read? spelling.toList).getD 0))
  | _ => none

/-- The property that a token names after a dot. -/
def Token.propertyName? : Token → Option String
  | .ident name => some name
  | .reserved w => some w.spelling
  | _ => none

/-- The byte at which the first of some tokens starts. -/
def firstByte : List Lexeme → Nat
  | [] => 0
  | t :: _ => t.start

/-- The byte at which the last of some tokens ends. -/
def lastByte (ts : List Lexeme) : Nat :=
  (ts.getLast?.map Lexeme.stop).getD 0

/-- The bytes from the first to the last of some tokens. -/
def spanOf (ts : List Lexeme) : Span :=
  ⟨firstByte ts, lastByte ts⟩

/-! ## Derivations -/

/-- The categories of expressions. -/
inductive Category where
  /-- A choice, or what binds tighter. -/
  | choice
  /-- Operands with operators of a level between them. -/
  | level (n : Nat)
  /-- An operand with operators before it. -/
  | unary
  /-- An operand with accesses after it. -/
  | access
  | operand
  deriving DecidableEq

/-- Tokens make up an expression of a category, and stand for a tree. -/
inductive Derives : Category → List Lexeme → Expr → Prop
  | choice {ts e} : Derives (.level 0) ts e → Derives .choice ts e
  | conditional {ts as bs test a b} {question colon : Lexeme} :
    Derives (.level 0) ts test → question.token = .symbol .question → Derives .choice as a →
    colon.token = .symbol .colon → Derives .choice bs b →
    Derives .choice (ts ++ question :: as ++ colon :: bs)
      (.conditional test a b (spanOf (ts ++ question :: as ++ colon :: bs)))
  | tighter {n ts e} : n < operatorTable.length → Derives (.level (n + 1)) ts e →
    Derives (.level n) ts e
  | binary {n ls rs l r row s op} {o : Lexeme} : operatorTable[n]? = some row → (s, op) ∈ row →
    Derives (.level n) ls l → o.token = .symbol s → Derives (.level (n + 1)) rs r →
    Derives (.level n) (ls ++ o :: rs) (.binary op l r (spanOf (ls ++ o :: rs)))
  | level {ts e} : Derives .unary ts e → Derives (.level operatorTable.length) ts e
  | unary {ts e s op} {o : Lexeme} : (s, op) ∈ prefixTable → o.token = .symbol s →
    Derives .unary ts e → Derives .unary (o :: ts) (.unary op e (spanOf (o :: ts)))
  | noPrefix {ts e} : Derives .access ts e → Derives .unary ts e
  | member {ts e name} {dot property : Lexeme} : Derives .access ts e →
    dot.token = .symbol .dot → property.token.propertyName? = some name →
    Derives .access (ts ++ [dot, property]) (.member e name (spanOf (ts ++ [dot, property])))
  | index {ts ks e k} {opening closing : Lexeme} : Derives .access ts e →
    opening.token = .symbol .openBracket → Derives .choice ks k →
    closing.token = .symbol .closeBracket →
    Derives .access (ts ++ opening :: ks ++ [closing])
      (.index e k (spanOf (ts ++ opening :: ks ++ [closing])))
  | access {ts e} : Derives .operand ts e → Derives .access ts e
  | literal {value} {t : Lexeme} : t.token.literalValue? = some value →
    Derives .operand [t] (.literal value (spanOf [t]))
  | ident {name} {t : Lexeme} : t.token = .ident name →
    Derives .operand [t] (.ident name (spanOf [t]))
  | group {ts e s s'} {opening closing : Lexeme} : (s, s') ∈ groupTable →
    opening.token = .symbol s → Derives .choice ts e → closing.token = .symbol s' →
    Derives .operand (opening :: ts ++ [closing]) e

section

variable {size n : Nat} {ts us rest : List Lexeme} {t : Lexeme} {c : Category} {e : Expr} {s : Symbol}
  {op : BinaryOp}

theorem Derives.choice_of_operand (h : Derives .operand ts e) : Derives .choice ts e :=
  .choice (.tighter (by decide) (.tighter (by decide) (.tighter (by decide) (.tighter (by decide)
    (.tighter (by decide) (.tighter (by decide) (.tighter (by decide)
      (.level (.noPrefix (.access h))))))))))

theorem Derives.ne_nil (h : Derives c ts e) : ts ≠ [] := by
  induction h <;> simp_all

@[simp] theorem firstByte_append (h : ts ≠ []) : firstByte (ts ++ us) = firstByte ts := by
  obtain ⟨t, ts, rfl⟩ := List.exists_cons_of_ne_nil h
  rfl

@[simp] theorem lastByte_append (h : us ≠ []) : lastByte (ts ++ us) = lastByte us := by
  rw [lastByte, List.getLast?_append_of_ne_nil _ h, lastByte]

@[simp] theorem lastByte_cons (h : ts ≠ []) : lastByte (t :: ts) = lastByte ts :=
  show lastByte ([t] ++ ts) = lastByte ts from lastByte_append h

theorem lastByte_concat : lastByte (ts ++ [t]) = t.stop := by
  simp [lastByte]

theorem startOf_append (h : ts ≠ []) : startOf size (ts ++ us) = firstByte ts := by
  obtain ⟨t, ts, rfl⟩ := List.exists_cons_of_ne_nil h
  rfl

/-! ## Symbols -/

/-- The table tells the operators of a level. -/
theorem ofSymbol?_eq_some_iff : BinaryOp.ofSymbol? s = some op ∧ op.level = n ↔
    ∃ row, operatorTable[n]? = some row ∧ (s, op) ∈ row := by
  constructor
  · rintro ⟨h, rfl⟩
    cases s <;> cases h <;> exact ⟨_, rfl, by decide⟩
  · rintro ⟨row, hrow, hmem⟩
    have table : ∀ r ∈ operatorTable.zipIdx, ∀ o ∈ r.1,
      BinaryOp.ofSymbol? o.1 = some o.2 ∧ o.2.level = r.2 := by decide
    exact table (row, n) (List.mem_zipIdx_iff_getElem?.mpr hrow) (s, op) hmem

theorem operatorAt?_eq_some_iff : operatorAt? n ts = some (op, rest) ↔
    ∃ t s row, ts = t :: rest ∧ t.token = .symbol s ∧ operatorTable[n]? = some row ∧
      (s, op) ∈ row := by
  have hcons : operatorAt? n ts = some (op, rest) ↔
      ∃ t s, ts = t :: rest ∧ t.token = .symbol s ∧ BinaryOp.ofSymbol? s = some op ∧ op.level = n := by
    constructor
    · intro h
      unfold operatorAt? at h
      split at h
      · rename_i s start stop ts
        split at h
        · rename_i op' hop
          split_ifs at h with hlevel
          cases h
          exact ⟨_, s, rfl, rfl, hop, hlevel⟩
        · cases h
      · cases h
    · rintro ⟨⟨token, start, stop⟩, s, rfl, rfl, hop, hlevel⟩
      simp [operatorAt?, hop, hlevel]
  simp only [hcons, ofSymbol?_eq_some_iff, exists_and_left]

theorem prefix_iff {op : UnaryOp} : UnaryOp.ofSymbol? s = some op ↔ (s, op) ∈ prefixTable := by
  cases s <;> cases op <;> decide

/-! ## What the parsers return -/

/-- Tokens are taken from the front, and make up an expression of a category. -/
def Reads (c : Category) (ts rest : List Lexeme) (e : Expr) (stop : Nat) : Prop :=
  ∃ used, ts = used ++ rest ∧ Derives c used e ∧ stop = lastByte used

/-- Tokens after an expression are taken, and make up an expression of a category with it. -/
def Extends (c : Category) (before ts rest : List Lexeme) (e : Expr) (stop : Nat) : Prop :=
  ∃ used, ts = used ++ rest ∧ Derives c (before ++ used) e ∧ stop = lastByte (before ++ used)

theorem propertyName?_of_expectProperty {stop : Nat} {name : String}
    (h : expectProperty size ts = .ok (name, stop, rest)) :
    ∃ t, t.token.propertyName? = some name ∧ ts = t :: rest ∧ stop = t.stop := by
  rcases ts with _ | ⟨t, ts⟩
  · cases h
  · simp only [expectProperty] at h
    split at h <;> rename_i ht <;> cases h <;> exact ⟨t, by rw [ht]; rfl, rfl, rfl⟩

/-- What the parsers return with a given fuel. -/
structure ParsersDerive (size fuel : Nat) : Prop where
  choice : ∀ {ts rest e stop},
    parseChoice size fuel ts = .ok (e, stop, rest) → Reads .choice ts rest e stop
  level : ∀ {n ts rest e stop}, n ≤ operatorTable.length →
    parseLevel size fuel n ts = .ok (e, stop, rest) → Reads (.level n) ts rest e stop
  operators : ∀ {n before ts left rest e stop}, n < operatorTable.length →
    Derives (.level n) before left →
    parseOperators size fuel n (firstByte before) left (lastByte before) ts = .ok (e, stop, rest) →
      Extends (.level n) before ts rest e stop
  unary : ∀ {ts rest e stop},
    parseUnary size fuel ts = .ok (e, stop, rest) → Reads .unary ts rest e stop
  access : ∀ {ts rest e stop},
    parseAccess size fuel ts = .ok (e, stop, rest) → Reads .access ts rest e stop
  accesses : ∀ {before ts left rest e stop}, Derives .access before left →
    parseAccesses size fuel (firstByte before) left (lastByte before) ts = .ok (e, stop, rest) →
      Extends .access before ts rest e stop
  operand : ∀ {ts rest e stop},
    parseOperand size fuel ts = .ok (e, stop, rest) → Reads .operand ts rest e stop

namespace ParsersDerive

variable {fuel stop : Nat} {left : Expr} {before : List Lexeme}

theorem choice_succ (ih : ParsersDerive size fuel)
    (h : parseChoice size (fuel + 1) ts = .ok (e, stop, rest)) : Reads .choice ts rest e stop := by
  simp only [parseChoice, bind_eq_ok_iff, Prod.exists] at h
  obtain ⟨test, stop₁, r₁, ht, h⟩ := h
  obtain ⟨us, rfl, hus, hstop⟩ := ih.level (Nat.zero_le _) ht
  split at h
  · rename_i start' stop' r₁
    simp only [bind_eq_ok_iff, Prod.exists] at h
    obtain ⟨a, _, r₂, ha, _, r₃, hx, b, _, r₄, hb, h⟩ := h
    obtain ⟨as, rfl, has, -⟩ := ih.choice ha
    obtain ⟨colon, hcolon, rfl, -⟩ := expect_eq_ok hx
    obtain ⟨bs, rfl, hbs, rfl⟩ := ih.choice hb
    have hquestion : (⟨.symbol .question, start', stop'⟩ : Lexeme).token = .symbol .question := rfl
    have hd := Derives.conditional hus hquestion has hcolon hbs
    cases h
    refine ⟨us ++ ⟨.symbol .question, start', stop'⟩ :: as ++ colon :: bs, by simp, ?_, ?_⟩
    · simpa [spanOf, startOf_append, hus.ne_nil, hbs.ne_nil] using hd
    · simp [hbs.ne_nil]
  · cases h
    exact ⟨us, rfl, .choice hus, hstop⟩

theorem level_succ (ih : ParsersDerive size fuel) (hn : n ≤ operatorTable.length)
    (h : parseLevel size (fuel + 1) n ts = .ok (e, stop, rest)) : Reads (.level n) ts rest e stop := by
  simp only [parseLevel] at h
  split_ifs at h with hlt
  · simp only [bind_eq_ok_iff, Prod.exists] at h
    obtain ⟨left, _, r, hleft, h⟩ := h
    obtain ⟨us, rfl, hus, rfl⟩ := ih.level hlt hleft
    rw [startOf_append hus.ne_nil] at h
    obtain ⟨vs, rfl, hvs, hstop⟩ := ih.operators hlt (.tighter hlt hus) h
    exact ⟨us ++ vs, by simp, hvs, hstop⟩
  · obtain ⟨us, rfl, hus, hstop⟩ := ih.unary h
    obtain rfl : n = operatorTable.length := Nat.le_antisymm hn (Nat.le_of_not_lt hlt)
    exact ⟨us, rfl, .level hus, hstop⟩

theorem operators_succ (ih : ParsersDerive size fuel) (hn : n < operatorTable.length)
    (hb : Derives (.level n) before left)
    (h : parseOperators size (fuel + 1) n (firstByte before) left (lastByte before) ts =
      .ok (e, stop, rest)) : Extends (.level n) before ts rest e stop := by
  simp only [parseOperators] at h
  split at h
  · cases h
    exact ⟨[], rfl, by rwa [List.append_nil], by rw [List.append_nil]⟩
  · rename_i op ts' hop
    obtain ⟨t, s, row, rfl, ht, hrow, hmem⟩ := operatorAt?_eq_some_iff.mp hop
    simp only [bind_eq_ok_iff, Prod.exists] at h
    obtain ⟨right, _, r, hright, h⟩ := h
    obtain ⟨us, rfl, hus, rfl⟩ := ih.level hn hright
    have hd := Derives.binary hrow hmem hb ht hus
    have hspan : spanOf (before ++ t :: us) = ⟨firstByte before, lastByte us⟩ := by
      simp [spanOf, hb.ne_nil, hus.ne_nil]
    have hfirst : firstByte (before ++ t :: us) = firstByte before := firstByte_append hb.ne_nil
    have hlast : lastByte (before ++ t :: us) = lastByte us := by
      rw [lastByte_append (List.cons_ne_nil t us), lastByte_cons hus.ne_nil]
    rw [← hspan, ← hfirst, ← hlast] at h
    obtain ⟨vs, rfl, hvs, hstop⟩ := ih.operators hn hd h
    exact ⟨t :: us ++ vs, by simp, by simpa using hvs, by simpa using hstop⟩

theorem unary_succ (ih : ParsersDerive size fuel)
    (h : parseUnary size (fuel + 1) ts = .ok (e, stop, rest)) : Reads .unary ts rest e stop := by
  have hnone : parseAccess size fuel ts = .ok (e, stop, rest) → Reads .unary ts rest e stop :=
    fun h => let ⟨us, hts, hus, hstop⟩ := ih.access h
      ⟨us, hts, .noPrefix hus, hstop⟩
  unfold parseUnary at h
  simp only at h
  split at h
  · rename_i s start stop' ts
    split at h
    · rename_i op hop
      simp only [bind_eq_ok_iff, Prod.exists] at h
      obtain ⟨operand, _, r, ho, h⟩ := h
      obtain ⟨us, rfl, hus, rfl⟩ := ih.unary ho
      have hd := Derives.unary (o := ⟨.symbol s, start, stop'⟩) (prefix_iff.mp hop) rfl hus
      cases h
      refine ⟨⟨.symbol s, start, stop'⟩ :: us, rfl, ?_, (lastByte_cons hus.ne_nil).symm⟩
      simpa [spanOf, hus.ne_nil, firstByte] using hd
    · exact hnone h
  · exact hnone h

theorem access_succ (ih : ParsersDerive size fuel)
    (h : parseAccess size (fuel + 1) ts = .ok (e, stop, rest)) : Reads .access ts rest e stop := by
  simp only [parseAccess, bind_eq_ok_iff, Prod.exists] at h
  obtain ⟨operand, _, r, ho, h⟩ := h
  obtain ⟨us, rfl, hus, rfl⟩ := ih.operand ho
  rw [startOf_append hus.ne_nil] at h
  obtain ⟨vs, rfl, hvs, hstop⟩ := ih.accesses (.access hus) h
  exact ⟨us ++ vs, by simp, hvs, hstop⟩

theorem accesses_succ (ih : ParsersDerive size fuel) (hb : Derives .access before left)
    (h : parseAccesses size (fuel + 1) (firstByte before) left (lastByte before) ts =
      .ok (e, stop, rest)) : Extends .access before ts rest e stop := by
  -- what was read so far, with one more access
  have more {us r : List Lexeme} {e' : Expr} (hne : us ≠ []) (hd : Derives .access (before ++ us) e')
      (h : parseAccesses size fuel (firstByte before) e' (lastByte us) r = .ok (e, stop, rest)) :
      Extends .access before (us ++ r) rest e stop := by
    have hfirst : firstByte (before ++ us) = firstByte before := firstByte_append hb.ne_nil
    have hlast : lastByte (before ++ us) = lastByte us := lastByte_append hne
    rw [← hfirst, ← hlast] at h
    obtain ⟨vs, rfl, hvs, hstop⟩ := ih.accesses hd h
    exact ⟨us ++ vs, by simp, by simpa using hvs, by simpa using hstop⟩
  unfold parseAccesses at h
  simp only at h
  split at h
  · rename_i start stop' ts
    simp only [bind_eq_ok_iff, Prod.exists] at h
    obtain ⟨name, stop₁, r, hp, h⟩ := h
    obtain ⟨t, ht, rfl, rfl⟩ := propertyName?_of_expectProperty hp
    have hdot : (⟨.symbol .dot, start, stop'⟩ : Lexeme).token = .symbol .dot := rfl
    have hd := Derives.member hb hdot ht
    have hspan : spanOf (before ++ [⟨.symbol .dot, start, stop'⟩, t]) = ⟨firstByte before, t.stop⟩ := by
      simp [spanOf, hb.ne_nil, lastByte]
    rw [hspan] at hd
    exact more (List.cons_ne_nil _ [t]) hd h
  · rename_i start stop' ts
    simp only [bind_eq_ok_iff, Prod.exists] at h
    obtain ⟨key, _, r, hk, stop₁, r', hx, h⟩ := h
    obtain ⟨ks, rfl, hks, -⟩ := ih.choice hk
    obtain ⟨t, ht, rfl, rfl⟩ := expect_eq_ok hx
    have hopening : (⟨.symbol .openBracket, start, stop'⟩ : Lexeme).token = .symbol .openBracket := rfl
    have hd := Derives.index hb hopening hks ht
    have hspan : spanOf (before ++ ⟨.symbol .openBracket, start, stop'⟩ :: ks ++ [t]) =
        ⟨firstByte before, t.stop⟩ := by
      rw [spanOf, lastByte_concat, List.append_assoc, firstByte_append hb.ne_nil]
    rw [hspan, List.append_assoc] at hd
    have hne : ⟨.symbol .openBracket, start, stop'⟩ :: ks ++ [t] ≠ [] := List.cons_ne_nil _ _
    have := more hne hd (by rwa [lastByte_concat])
    simpa using this
  · cases h
    exact ⟨[], rfl, by rwa [List.append_nil], by rw [List.append_nil]⟩

theorem operand_succ (ih : ParsersDerive size fuel)
    (h : parseOperand size (fuel + 1) ts = .ok (e, stop, rest)) : Reads .operand ts rest e stop := by
  rcases ts with _ | ⟨⟨token, start, stop'⟩, ts⟩
  · simp [parseOperand] at h
  · unfold parseOperand at h
    simp only at h
    -- a group is read between two symbols
    have group {inner rest : List Lexeme} {s s' : Symbol} {stop : Nat} {e : Expr} {w : Nat}
        (hmem : (s, s') ∈ groupTable) (hg : parseChoice size fuel ts = .ok (e, w, inner))
        (hx : expect size s' inner = .ok (stop, rest)) :
        Reads .operand (⟨.symbol s, start, stop'⟩ :: ts) rest e stop := by
      obtain ⟨us, rfl, hus, -⟩ := ih.choice hg
      obtain ⟨t, ht, rfl, rfl⟩ := expect_eq_ok hx
      exact ⟨⟨.symbol s, start, stop'⟩ :: us ++ [t], by simp, .group hmem rfl hus ht,
        lastByte_concat.symm⟩
    split at h
    · cases h
      exact ⟨[_], rfl, .literal rfl, rfl⟩
    · cases h
      exact ⟨[_], rfl, .ident rfl, rfl⟩
    · cases h
      exact ⟨[_], rfl, .literal rfl, rfl⟩
    · cases h
      exact ⟨[_], rfl, .literal rfl, rfl⟩
    · simp only [bind_eq_ok_iff, Prod.exists] at h
      obtain ⟨inner, _, r, hg, _, r', hx, h⟩ := h
      cases h
      exact group (by decide) hg hx
    · simp only [bind_eq_ok_iff, Prod.exists] at h
      obtain ⟨inner, _, r, hg, _, r', hx, h⟩ := h
      cases h
      exact group (by decide) hg hx
    · cases h

end ParsersDerive

theorem parsersDerive (size : Nat) : ∀ fuel, ParsersDerive size fuel
  | 0 => by
    constructor <;> intros <;> rename_i h <;>
      simp [parseChoice, parseLevel, parseOperators, parseUnary, parseAccess, parseAccesses,
        parseOperand] at h
  | fuel + 1 =>
    have ih := parsersDerive size fuel
    ⟨ih.choice_succ, ih.level_succ, ih.operators_succ, ih.unary_succ, ih.access_succ,
      ih.accesses_succ, ih.operand_succ⟩

/-- A tree that is returned is derived from the tokens. -/
theorem derives_of_parseTokens (h : parseTokens size ts = .ok e) : Derives .choice ts e := by
  simp only [parseTokens] at h
  split at h
  · cases h
  · simp only [bind_eq_ok_iff, Prod.exists] at h
    obtain ⟨e', _, rest, hp, h⟩ := h
    split at h
    · cases h
      obtain ⟨used, rfl, hd, -⟩ := (parsersDerive _ _).choice hp
      rwa [List.append_nil]
    · cases h

end

end LiveMarkup
