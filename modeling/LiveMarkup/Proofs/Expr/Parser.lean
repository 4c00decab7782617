import Mathlib.Data.List.Chain
import LiveMarkup.Expr.Parser
import LiveMarkup.Proofs.Result

/-!
# What a parser takes

A parser takes tokens from the front and leaves the others (`Takes`).  The names in the tree that it
returns are tokens that it took, and no number that it took stands right before a name: wherever two
parts of a tree meet there is a symbol between them (`Continues`).  For a whole expression this says
that all its tokens are taken (`parseTokens_takes`).
-/

namespace LiveMarkup

/-- Whether a token is a number. -/
def Token.isNumber : Token → Bool
  | number _ => true
  | _ => false

/-- Whether a token is a name. -/
def Token.isIdent : Token → Bool
  | ident _ => true
  | _ => false

/-- Two neighbours that are no number before a name. -/
def Apart (a b : Lexeme) : Prop :=
  a.token.isNumber = false ∨ b.token.isIdent = false

/-- The tokens before `rest` are taken, and the given names are among them. -/
def Takes (ts rest : List Lexeme) (names : List String) : Prop :=
  ∃ used, ts = used ++ rest ∧ used.IsChain Apart ∧ ∀ x ∈ names, ∃ t ∈ used, t.token = .ident x

/-- As `Takes`, for what follows a part of a tree: the first token taken is no name. -/
def Continues (ts rest : List Lexeme) (names : List String) : Prop :=
  ∃ used, ts = used ++ rest ∧ used.IsChain Apart ∧ (∀ x ∈ names, ∃ t ∈ used, t.token = .ident x) ∧
    ∀ t ∈ used.head?, t.token.isIdent = false

section

variable {ts mid rest : List Lexeme} {names more : List String} {t : Lexeme} {s : Symbol}

theorem Continues.refl : Continues ts ts [] :=
  ⟨[], rfl, .nil, by simp, by simp⟩

theorem Takes.one (h : ∀ x ∈ names, t.token = .ident x) : Takes (t :: ts) ts names :=
  ⟨[t], rfl, .singleton t, fun x hx => ⟨t, by simp, h x hx⟩⟩

theorem Continues.takes (h : Continues ts rest names) : Takes ts rest names :=
  let ⟨used, hu, hc, hn, _⟩ := h
  ⟨used, hu, hc, hn⟩

theorem Takes.then (h : Takes ts mid names) (h' : Continues mid rest more) :
    Takes ts rest (names ++ more) := by
  obtain ⟨used, rfl, hc, hn⟩ := h
  obtain ⟨used', rfl, hc', hn', hh⟩ := h'
  refine ⟨used ++ used', by simp, hc.append hc' fun _ _ b hb => .inr (hh b hb), fun x hx => ?_⟩
  rcases List.mem_append.mp hx with hx | hx
  · obtain ⟨t, ht, he⟩ := hn x hx
    exact ⟨t, List.mem_append_left _ ht, he⟩
  · obtain ⟨t, ht, he⟩ := hn' x hx
    exact ⟨t, List.mem_append_right _ ht, he⟩

/-- Whatever is taken after a symbol continues what is before it. -/
theorem Continues.symbol (ht : t.token = .symbol s) (h : Takes ts rest names) :
    Continues (t :: ts) rest names := by
  obtain ⟨used, rfl, hc, hn⟩ := h
  refine ⟨t :: used, rfl, hc.cons fun _ _ => .inl (by rw [ht]; rfl), fun x hx => ?_, ?_⟩
  · obtain ⟨t', ht', he⟩ := hn x hx
    exact ⟨t', List.mem_cons_of_mem _ ht', he⟩
  · simp [ht, Token.isIdent]

theorem Continues.then (h : Continues ts mid names) (h' : Continues mid rest more) :
    Continues ts rest (names ++ more) := by
  obtain ⟨used, rfl, hc, hn, hh⟩ := h
  rcases used with _ | ⟨t, used⟩
  · obtain rfl : names = [] := List.eq_nil_iff_forall_not_mem.mpr fun x hx => by
      obtain ⟨_, ht, -⟩ := hn x hx
      cases ht
    exact h'
  · obtain ⟨used', hu, hc', hn'⟩ := Takes.then ⟨_, rfl, hc, hn⟩ h'
    obtain ⟨used'', rfl, -, -, -⟩ := h'
    rw [← List.append_assoc] at hu
    obtain rfl := List.append_cancel_right hu
    exact ⟨_, by rw [List.append_assoc], hc', hn', hh⟩

theorem Takes.closed (h : Takes ts (t :: rest) names) (ht : t.token = .symbol s) :
    Takes ts rest names := by
  have closing : Continues (t :: rest) rest [] := .symbol ht Continues.refl.takes
  rw [← List.append_nil names]
  exact h.then closing

theorem expect_eq_ok {size stop : Nat} (h : expect size s ts = .ok (stop, rest)) :
    ∃ t, t.token = .symbol s ∧ ts = t :: rest ∧ stop = t.stop := by
  rcases ts with _ | ⟨t, ts⟩
  · cases h
  · simp only [expect] at h
    split_ifs at h with ht
    cases h
    exact ⟨t, ht, rfl, rfl⟩

theorem operatorAt?_eq_some {level : Nat} {op : BinaryOp} (h : operatorAt? level ts = some (op, rest)) :
    ∃ t s, t.token = .symbol s ∧ ts = t :: rest := by
  simp only [operatorAt?] at h
  split at h
  · split at h
    · split_ifs at h
      cases h
      exact ⟨_, _, rfl, rfl⟩
    · cases h
  · cases h

theorem expectProperty_eq_ok {size stop : Nat} {name : String}
    (h : expectProperty size ts = .ok (name, stop, rest)) : Takes ts rest [] := by
  rcases ts with _ | ⟨t, ts⟩
  · cases h
  · simp only [expectProperty] at h
    split at h <;> cases h <;> exact .one (by simp)

end

/-- What the parsers take with a given fuel. -/
structure ParsersTake (size fuel : Nat) : Prop where
  choice : ∀ {ts rest e stop},
    parseChoice size fuel ts = .ok (e, stop, rest) → Takes ts rest e.occurrences
  level : ∀ {level ts rest e stop},
    parseLevel size fuel level ts = .ok (e, stop, rest) → Takes ts rest e.occurrences
  operators : ∀ {level start left stop ts rest e stop'},
    parseOperators size fuel level start left stop ts = .ok (e, stop', rest) →
      ∃ names, Continues ts rest names ∧ e.occurrences = left.occurrences ++ names
  unary : ∀ {ts rest e stop},
    parseUnary size fuel ts = .ok (e, stop, rest) → Takes ts rest e.occurrences
  access : ∀ {ts rest e stop},
    parseAccess size fuel ts = .ok (e, stop, rest) → Takes ts rest e.occurrences
  accesses : ∀ {start left stop ts rest e stop'},
    parseAccesses size fuel start left stop ts = .ok (e, stop', rest) →
      ∃ names, Continues ts rest names ∧ e.occurrences = left.occurrences ++ names
  operand : ∀ {ts rest e stop},
    parseOperand size fuel ts = .ok (e, stop, rest) → Takes ts rest e.occurrences

namespace ParsersTake

variable {size fuel : Nat} {ts rest : List Lexeme} {e : Expr} {stop : Nat}

theorem choice_succ (ih : ParsersTake size fuel)
    (h : parseChoice size (fuel + 1) ts = .ok (e, stop, rest)) : Takes ts rest e.occurrences := by
  simp only [parseChoice, bind_eq_ok_iff, Prod.exists] at h
  obtain ⟨test, _, r₁, ht, h⟩ := h
  split at h
  · simp only [bind_eq_ok_iff, Prod.exists] at h
    obtain ⟨a, _, r₂, ha, _, r₃, hx, b, _, r₄, hb, h⟩ := h
    cases h
    obtain ⟨t, hc, rfl, -⟩ := expect_eq_ok hx
    have hab := (ih.choice ha).then (.symbol hc (ih.choice hb))
    rw [Expr.occurrences, List.append_assoc]
    exact (ih.level ht).then (.symbol (s := .question) rfl hab)
  · cases h
    exact ih.level ht

theorem level_succ (ih : ParsersTake size fuel) {level : Nat}
    (h : parseLevel size (fuel + 1) level ts = .ok (e, stop, rest)) :
    Takes ts rest e.occurrences := by
  simp only [parseLevel] at h
  split_ifs at h with hl
  · simp only [bind_eq_ok_iff, Prod.exists] at h
    obtain ⟨left, _, r, hleft, h⟩ := h
    obtain ⟨names, hc, he⟩ := ih.operators h
    rw [he]
    exact (ih.level hleft).then hc
  · exact ih.unary h

theorem operators_succ (ih : ParsersTake size fuel) {level start stop' : Nat} {left : Expr}
    (h : parseOperators size (fuel + 1) level start left stop ts = .ok (e, stop', rest)) :
    ∃ names, Continues ts rest names ∧ e.occurrences = left.occurrences ++ names := by
  simp only [parseOperators] at h
  split at h
  · cases h
    exact ⟨[], .refl, by simp⟩
  · rename_i op ts' hop
    obtain ⟨t, s, ht, rfl⟩ := operatorAt?_eq_some hop
    simp only [bind_eq_ok_iff, Prod.exists] at h
    obtain ⟨right, _, r, hright, h⟩ := h
    obtain ⟨names, hc, he⟩ := ih.operators h
    refine ⟨right.occurrences ++ names, .then (.symbol ht (ih.level hright)) hc, ?_⟩
    rw [he, Expr.occurrences, List.append_assoc]

theorem unary_succ (ih : ParsersTake size fuel)
    (h : parseUnary size (fuel + 1) ts = .ok (e, stop, rest)) : Takes ts rest e.occurrences := by
  unfold parseUnary at h
  simp only at h
  split at h
  · split at h
    · simp only [bind_eq_ok_iff, Prod.exists] at h
      obtain ⟨operand, _, r, ho, h⟩ := h
      cases h
      exact (Continues.symbol rfl (ih.unary ho)).takes
    · exact ih.access h
  · exact ih.access h

theorem access_succ (ih : ParsersTake size fuel)
    (h : parseAccess size (fuel + 1) ts = .ok (e, stop, rest)) : Takes ts rest e.occurrences := by
  simp only [parseAccess, bind_eq_ok_iff, Prod.exists] at h
  obtain ⟨operand, _, r, ho, h⟩ := h
  obtain ⟨names, hc, he⟩ := ih.accesses h
  rw [he]
  exact (ih.operand ho).then hc

theorem accesses_succ (ih : ParsersTake size fuel) {start stop' : Nat} {left : Expr}
    (h : parseAccesses size (fuel + 1) start left stop ts = .ok (e, stop', rest)) :
    ∃ names, Continues ts rest names ∧ e.occurrences = left.occurrences ++ names := by
  unfold parseAccesses at h
  simp only at h
  split at h
  · simp only [bind_eq_ok_iff, Prod.exists] at h
    obtain ⟨property, _, r, hp, h⟩ := h
    obtain ⟨names, hc, he⟩ := ih.accesses h
    exact ⟨names, .then (.symbol rfl (expectProperty_eq_ok hp)) hc, he⟩
  · simp only [bind_eq_ok_iff, Prod.exists] at h
    obtain ⟨key, _, r, hk, _, r', hx, h⟩ := h
    obtain ⟨t, ht, rfl, -⟩ := expect_eq_ok hx
    obtain ⟨names, hc, he⟩ := ih.accesses h
    refine ⟨key.occurrences ++ names, .then (.symbol rfl ((ih.choice hk).closed ht)) hc, ?_⟩
    rw [he, Expr.occurrences, List.append_assoc]
  · cases h
    exact ⟨[], .refl, by simp⟩

theorem operand_succ (ih : ParsersTake size fuel)
    (h : parseOperand size (fuel + 1) ts = .ok (e, stop, rest)) : Takes ts rest e.occurrences := by
  rcases ts with _ | ⟨⟨token, start, stop'⟩, ts⟩
  · simp [parseOperand] at h
  · unfold parseOperand at h
    simp only at h
    -- a group in parentheses or braces is read between two symbols
    have group {inner rest : List Lexeme} {close : Symbol} {stop : Nat} {e : Expr} {w : Nat}
        {opened : Symbol} (hg : parseChoice size fuel ts = .ok (e, w, inner))
        (hx : expect size close inner = .ok (stop, rest)) :
        Takes (⟨.symbol opened, start, stop'⟩ :: ts) rest e.occurrences := by
      obtain ⟨t, ht, rfl, -⟩ := expect_eq_ok hx
      exact (Continues.symbol rfl ((ih.choice hg).closed ht)).takes
    split at h
    · cases h
      exact .one (by simp [Expr.occurrences])
    · cases h
      exact .one (by simp [Expr.occurrences])
    · cases h
      exact .one (by simp [Expr.occurrences])
    · cases h
      exact .one (by simp [Expr.occurrences])
    · simp only [bind_eq_ok_iff, Prod.exists] at h
      obtain ⟨inner, _, r, hg, _, r', hx, h⟩ := h
      cases h
      exact group hg hx
    · simp only [bind_eq_ok_iff, Prod.exists] at h
      obtain ⟨inner, _, r, hg, _, r', hx, h⟩ := h
      cases h
      exact group hg hx
    · cases h

end ParsersTake

theorem parsersTake (size : Nat) : ∀ fuel, ParsersTake size fuel
  | 0 => by
    constructor <;> intros <;> rename_i h <;>
      simp [parseChoice, parseLevel, parseOperators, parseUnary, parseAccess, parseAccesses,
        parseOperand] at h
  | fuel + 1 =>
    have ih := parsersTake size fuel
    ⟨ih.choice_succ, ih.level_succ, ih.operators_succ, ih.unary_succ, ih.access_succ,
      ih.accesses_succ, ih.operand_succ⟩

/-- In the tokens of an expression no number stands right before a name, and the names that the
expression looks up are among them. -/
theorem parseTokens_takes {size : Nat} {ts : List Lexeme} {e : Expr}
    (h : parseTokens size ts = .ok e) :
    ts.IsChain Apart ∧ ∀ x ∈ e.occurrences, ∃ t ∈ ts, t.token = .ident x := by
  simp only [parseTokens] at h
  split at h
  · cases h
  · simp only [bind_eq_ok_iff, Prod.exists] at h
    obtain ⟨e', _, rest, hp, h⟩ := h
    split at h
    · cases h
      obtain ⟨used, hu, hc, hn⟩ := (parsersTake _ _).choice hp
      rw [List.append_nil] at hu
      subst hu
      exact ⟨hc, hn⟩
    · cases h

end LiveMarkup
