import LiveMarkup.Proofs.Expr.Accepted
import LiveMarkup.Proofs.Expr.Lookup

/-!
# Expressions in which items go by names

A name that is bound to an item of an array is read like the access to that item: where the tokens
`name [ digits ]` of an expression are swapped for one such name, the parser takes the same course and
comes to an expression of the same value, or fails in the same way (`alike_parseTokens`).  After a
dot a name is a property and is not swapped.
-/

namespace LiveMarkup

/-! ## Failing alike -/

/-- The kinds of errors of an expression. -/
inductive ErrorKind where
  | empty
  | unexpectedCharacter
  | unexpectedToken
  | unexpectedEnd
  | unbound
  | noProperties
  deriving DecidableEq

/-- The kind of an error, whatever its position and the names in it. -/
def ExprError.kind : ExprError → ErrorKind
  | empty => .empty
  | unexpectedCharacter _ => .unexpectedCharacter
  | unexpectedToken .. => .unexpectedToken
  | unexpectedEnd _ => .unexpectedEnd
  | unbound _ => .unbound
  | noProperties .. => .noProperties

/-- Two computations both come to results that are related, or fail in the same way. -/
inductive Alike {α β : Type} (r : α → β → Prop) : Except ExprError α → Except ExprError β → Prop where
  | ok {a : α} {b : β} : r a b → Alike r (.ok a) (.ok b)
  | error {e e' : ExprError} : e.kind = e'.kind → Alike r (.error e) (.error e')

section

variable {α β γ δ : Type} {r : α → β → Prop} {q : γ → δ → Prop} {x : Except ExprError α}
  {y : Except ExprError β} {f : α → Except ExprError γ} {g : β → Except ExprError δ}

theorem Alike.bind (h : Alike r x y) (hfg : ∀ a b, x = .ok a → r a b → Alike q (f a) (g b)) :
    Alike q (x >>= f) (y >>= g) := by
  cases h with
  | ok hab => exact hfg _ _ rfl hab
  | error he => exact .error he

end

/-! ## Swapping tokens -/

/-- Tokens of which some accesses to items are swapped for names, in scopes for the one and the
other; the flag tells that the tokens follow a dot. -/
inductive Swaps (s s' : Scope) : Bool → List Lexeme → List Lexeme → Prop where
  | nil {dot : Bool} : Swaps s s' dot [] []
  | keep {dot : Bool} {t t' : Lexeme} {ts ts' : List Lexeme} : t.token = t'.token →
    (∀ x, t.token = .ident x → s.find? x = s'.find? x) →
    Swaps s s' (t.token = .symbol .dot) ts ts' → Swaps s s' dot (t :: ts) (t' :: ts')
  | item {name temp digits : String} {target value : Value} {t o n c t' : Lexeme}
    {ts ts' : List Lexeme} : t.token = .ident name → o.token = .symbol .openBracket →
    n.token = .number digits → c.token = .symbol .closeBracket → t'.token = .ident temp →
    s.find? name = some target → s'.find? temp = some value →
    target.at? (.number ((Decimal.read? digits.toList).getD 0)) = .ok value →
    Swaps s s' false ts ts' → Swaps s s' false (t :: o :: n :: c :: ts) (t' :: ts')

/-- What two parsers come to: expressions of one value, and the tokens that are left. -/
def SameParsed (s s' : Scope) (r r' : Expr × Nat × List Lexeme) : Prop :=
  r.1.eval s = r'.1.eval s' ∧ Swaps s s' false r.2.2 r'.2.2

section

variable {s s' : Scope} {dot : Bool} {ts ts' : List Lexeme} {size size' fuel n : Nat}

theorem Swaps.length_le (h : Swaps s s' dot ts ts') : ts'.length ≤ ts.length := by
  induction h with
  | nil => exact Nat.le_refl _
  | keep _ _ _ ih => exact Nat.succ_le_succ ih
  | item _ _ _ _ _ _ _ _ _ ih =>
    simp only [List.length_cons]
    omega

/-- What does not follow a dot may be swapped. -/
theorem Swaps.undotted (h : Swaps s s' dot ts ts') : Swaps s s' false ts ts' := by
  cases h with
  | nil => exact .nil
  | keep ht hx hts => exact .keep ht hx hts
  | item ht ho hn hc ht' htarget hvalue hitem hts =>
    exact .item ht ho hn hc ht' htarget hvalue hitem hts

theorem Swaps.symbol_head {sym : Symbol} {a b : Nat} (h : Swaps s s' dot (⟨.symbol sym, a, b⟩ :: ts) ts') :
    ∃ a' b' us, ts' = ⟨.symbol sym, a', b'⟩ :: us ∧ Swaps s s' (sym = .dot) ts us := by
  cases h with
  | @keep _ _ t' _ us ht _ hts =>
    obtain ⟨tok, a', b'⟩ := t'
    cases ht
    exact ⟨a', b', us, rfl, by simpa using hts⟩
  | item ht => cases ht

theorem Swaps.symbol_head' {sym : Symbol} {a b : Nat} (h : Swaps s s' dot ts (⟨.symbol sym, a, b⟩ :: ts')) :
    ∃ a' b' us, ts = ⟨.symbol sym, a', b'⟩ :: us := by
  cases h with
  | @keep _ t _ us _ ht _ _ =>
    obtain ⟨tok, a', b'⟩ := t
    cases ht
    exact ⟨a', b', us, rfl⟩
  | item _ _ _ _ ht' => cases ht'

theorem alike_expect {sym : Symbol} (h : Swaps s s' dot ts ts') :
    Alike (fun r r' => Swaps s s' false r.2 r'.2) (expect size sym ts) (expect size' sym ts') := by
  cases h with
  | nil => exact .error rfl
  | keep ht hx hts =>
    rw [expect, expect, ← ht]
    split
    · exact .ok hts.undotted
    · exact .error rfl
  | item ht _ _ _ ht' =>
    rw [expect, expect, ht, ht', if_neg (by simp), if_neg (by simp)]
    exact .error rfl

/-- A name after a dot is read as it stands. -/
theorem alike_expectProperty (h : Swaps s s' true ts ts') :
    Alike (fun r r' => r.1 = r'.1 ∧ Swaps s s' false r.2.2 r'.2.2) (expectProperty size ts)
      (expectProperty size' ts') := by
  cases h with
  | nil => exact .error rfl
  | keep ht hx hts =>
    simp only [expectProperty, ← ht]
    split
    · exact .ok ⟨rfl, hts.undotted⟩
    · exact .ok ⟨rfl, hts.undotted⟩
    · exact .error rfl

theorem operatorAt?_swaps (h : Swaps s s' dot ts ts') :
    (operatorAt? n ts = none ∧ operatorAt? n ts' = none) ∨
      ∃ op us us', operatorAt? n ts = some (op, us) ∧ operatorAt? n ts' = some (op, us') ∧
        Swaps s s' false us us' := by
  cases h with
  | nil => exact .inl ⟨rfl, rfl⟩
  | @keep _ t t' us us' ht _ hus =>
    obtain ⟨tok, a, b⟩ := t
    obtain ⟨tok', a', b'⟩ := t'
    cases ht
    cases tok with
    | symbol sym =>
      simp only [operatorAt?]
      split
      · split
        · exact .inr ⟨_, us, us', rfl, rfl, hus.undotted⟩
        · exact .inl ⟨rfl, rfl⟩
      · exact .inl ⟨rfl, rfl⟩
    | _ => exact .inl ⟨rfl, rfl⟩
  | @item _ _ _ _ _ t _ _ _ t' _ _ ht _ _ _ ht' =>
    obtain ⟨tok, a, b⟩ := t
    obtain ⟨tok', a', b'⟩ := t'
    cases ht
    cases ht'
    exact .inl ⟨rfl, rfl⟩

/-! ## The parsers -/

/-- With enough fuel, each parser comes to the same with the tokens that are swapped. -/
structure ParsersAlike (s s' : Scope) (size size' fuel : Nat) : Prop where
  choice : ∀ {ts ts'}, Swaps s s' false ts ts' → 12 * ts.length + 12 ≤ fuel →
    Alike (SameParsed s s') (parseChoice size fuel ts) (parseChoice size' fuel ts')
  level : ∀ {n ts ts'}, Swaps s s' false ts ts' → n ≤ operatorTable.length →
    12 * ts.length + 11 ≤ fuel + n →
    Alike (SameParsed s s') (parseLevel size fuel n ts) (parseLevel size' fuel n ts')
  operators : ∀ {n ts ts' start start' left left' stop stop'}, Swaps s s' false ts ts' →
    left.eval s = left'.eval s' → n < operatorTable.length → 12 * ts.length + 1 ≤ fuel →
    Alike (SameParsed s s') (parseOperators size fuel n start left stop ts)
      (parseOperators size' fuel n start' left' stop' ts')
  unary : ∀ {ts ts'}, Swaps s s' false ts ts' → 12 * ts.length + 3 ≤ fuel →
    Alike (SameParsed s s') (parseUnary size fuel ts) (parseUnary size' fuel ts')
  access : ∀ {ts ts'}, Swaps s s' false ts ts' → 12 * ts.length + 2 ≤ fuel →
    Alike (SameParsed s s') (parseAccess size fuel ts) (parseAccess size' fuel ts')
  accesses : ∀ {ts ts' start start' left left' stop stop'}, Swaps s s' false ts ts' →
    left.eval s = left'.eval s' → 12 * ts.length + 1 ≤ fuel →
    Alike (SameParsed s s') (parseAccesses size fuel start left stop ts)
      (parseAccesses size' fuel start' left' stop' ts')
  operand : ∀ {t t' ts ts'}, t.token = t'.token → (∀ x, t.token = .ident x → s.find? x = s'.find? x) →
    Swaps s s' (t.token = .symbol .dot) ts ts' → 12 * (t :: ts).length + 1 ≤ fuel →
    Alike (SameParsed s s') (parseOperand size fuel (t :: ts)) (parseOperand size' fuel (t' :: ts'))

namespace ParsersAlike

variable (ih : ParsersAlike s s' size size' fuel)
include ih

theorem choice_succ (h : Swaps s s' false ts ts') (hf : 12 * ts.length + 12 ≤ fuel + 1) :
    Alike (SameParsed s s') (parseChoice size (fuel + 1) ts) (parseChoice size' (fuel + 1) ts') := by
  rw [parseChoice, parseChoice]
  refine (ih.level h (Nat.zero_le _) (by omega)).bind fun r r' ht hr => ?_
  obtain ⟨test, stop, rest⟩ := r
  obtain ⟨test', stop', rest'⟩ := r'
  obtain ⟨htest, hrest⟩ := hr
  have h1 := ((parsersDerive size fuel).level (Nat.zero_le _) ht).length_le
  dsimp only at htest hrest ⊢
  split
  · obtain ⟨_, _, us', rfl, hus⟩ := hrest.symbol_head
    dsimp only
    rw [List.length_cons] at h1
    refine (ih.choice hus (by omega)).bind fun r r' ha hr => ?_
    obtain ⟨a, _, rest⟩ := r
    obtain ⟨a', _, rest'⟩ := r'
    have h2 := ((parsersDerive size fuel).choice ha).length_le
    refine (alike_expect hr.2).bind fun q q' hx hq => ?_
    have h3 := length_of_expect hx
    dsimp only at h2 h3 ⊢
    refine (ih.choice hq (by omega)).bind fun p p' hb hp => .ok ⟨?_, hp.2⟩
    simp only [Expr.eval, htest, hr.1, hp.1]
  · rename_i hquestion
    split
    · obtain ⟨_, _, us, rfl⟩ := hrest.symbol_head'
      exact absurd rfl (hquestion _ _ us)
    · exact .ok ⟨htest, hrest⟩

theorem level_succ (h : Swaps s s' false ts ts') (hn : n ≤ operatorTable.length)
    (hf : 12 * ts.length + 11 ≤ fuel + 1 + n) :
    Alike (SameParsed s s') (parseLevel size (fuel + 1) n ts) (parseLevel size' (fuel + 1) n ts') := by
  have hlevels : operatorTable.length = 7 := rfl
  rw [parseLevel, parseLevel]
  split
  · rename_i hlt
    refine (ih.level h hlt (by omega)).bind fun r r' hl hr => ?_
    have h1 := ((parsersDerive size fuel).level hlt hl).length_le
    exact ih.operators hr.2 hr.1 hlt (by omega)
  · rename_i hlt
    have hn' : n = 7 := Nat.le_antisymm hn (Nat.le_of_not_lt hlt)
    exact ih.unary h (by omega)

theorem operators_succ {start start' stop stop' : Nat} {left left' : Expr}
    (h : Swaps s s' false ts ts') (hleft : left.eval s = left'.eval s')
    (hn : n < operatorTable.length) (hf : 12 * ts.length + 1 ≤ fuel + 1) :
    Alike (SameParsed s s') (parseOperators size (fuel + 1) n start left stop ts)
      (parseOperators size' (fuel + 1) n start' left' stop' ts') := by
  rw [parseOperators, parseOperators]
  rcases operatorAt?_swaps (n := n) h with ⟨hnone, hnone'⟩ | ⟨op, us, us', hop, hop', hus⟩
  · rw [hnone, hnone']
    exact .ok ⟨hleft, h⟩
  · rw [hop, hop']
    obtain ⟨t, sym, row, rfl, -⟩ := operatorAt?_eq_some_iff.mp hop
    rw [List.length_cons] at hf
    refine (ih.level hus hn (by omega)).bind fun r r' hright hr => ?_
    have h1 := ((parsersDerive size fuel).level hn hright).length_le
    refine ih.operators hr.2 ?_ hn (by omega)
    simp only [Expr.eval, hleft, hr.1]

theorem unary_succ (h : Swaps s s' false ts ts') (hf : 12 * ts.length + 3 ≤ fuel + 1) :
    Alike (SameParsed s s') (parseUnary size (fuel + 1) ts) (parseUnary size' (fuel + 1) ts') := by
  have hnone := ih.access h (by omega)
  unfold parseUnary
  simp only
  split
  · obtain ⟨_, _, us', rfl, hus⟩ := h.symbol_head
    dsimp only
    split
    · rw [List.length_cons] at hf
      refine (ih.unary hus.undotted (by omega)).bind fun r r' _ hr => .ok ⟨?_, hr.2⟩
      simp only [Expr.eval, hr.1]
    · exact hnone
  · rename_i hsymbol
    split
    · obtain ⟨_, _, us, rfl⟩ := h.symbol_head'
      exact absurd rfl (hsymbol _ _ _ us)
    · exact hnone

theorem accesses_succ {start start' stop stop' : Nat} {left left' : Expr}
    (h : Swaps s s' false ts ts') (hleft : left.eval s = left'.eval s')
    (hf : 12 * ts.length + 1 ≤ fuel + 1) :
    Alike (SameParsed s s') (parseAccesses size (fuel + 1) start left stop ts)
      (parseAccesses size' (fuel + 1) start' left' stop' ts') := by
  unfold parseAccesses
  split
  · obtain ⟨_, _, us', rfl, hus⟩ := h.symbol_head
    dsimp only
    rw [List.length_cons] at hf
    refine (alike_expectProperty (by simpa using hus)).bind fun r r' hp hr => ?_
    obtain ⟨name, stop, rest⟩ := r
    obtain ⟨name', stop', rest'⟩ := r'
    obtain ⟨rfl, hrest⟩ := hr
    have h1 := length_of_expectProperty hp
    dsimp only at hrest ⊢
    refine ih.accesses hrest ?_ (by omega)
    simp only [Expr.eval, hleft]
  · obtain ⟨_, _, us', rfl, hus⟩ := h.symbol_head
    dsimp only
    rw [List.length_cons] at hf
    refine (ih.choice hus.undotted (by omega)).bind fun r r' hk hr => ?_
    obtain ⟨key, _, rest⟩ := r
    obtain ⟨key', _, rest'⟩ := r'
    obtain ⟨hkey, hrest⟩ := hr
    have h1 := ((parsersDerive size fuel).choice hk).length_le
    refine (alike_expect hrest).bind fun q q' hx hq => ?_
    obtain ⟨stop, rest⟩ := q
    obtain ⟨stop', rest'⟩ := q'
    have h2 := length_of_expect hx
    dsimp only at hkey hq h1 h2 ⊢
    refine ih.accesses hq ?_ (by omega)
    simp only [Expr.eval, hleft, hkey]
  · rename_i hdot hbracket
    split
    · obtain ⟨_, _, us, rfl⟩ := h.symbol_head'
      exact absurd rfl (hdot _ _ us)
    · obtain ⟨_, _, us, rfl⟩ := h.symbol_head'
      exact absurd rfl (hbracket _ _ us)
    · exact .ok ⟨hleft, h⟩

theorem operand_succ {t t' : Lexeme} (ht : t.token = t'.token)
    (hx : ∀ x, t.token = .ident x → s.find? x = s'.find? x)
    (h : Swaps s s' (t.token = .symbol .dot) ts ts') (hf : 12 * (t :: ts).length + 1 ≤ fuel + 1) :
    Alike (SameParsed s s') (parseOperand size (fuel + 1) (t :: ts))
      (parseOperand size' (fuel + 1) (t' :: ts')) := by
  obtain ⟨tok, a, b⟩ := t
  obtain ⟨tok', a', b'⟩ := t'
  cases ht
  rw [List.length_cons] at hf
  have hts := h.undotted
  unfold parseOperand
  dsimp only
  split
  · exact .ok ⟨rfl, hts⟩
  · rename_i name
    refine .ok ⟨?_, hts⟩
    simp only [Expr.eval, hx name rfl]
  · exact .ok ⟨rfl, hts⟩
  · exact .ok ⟨rfl, hts⟩
  · exact (ih.choice hts (by omega)).bind fun r r' _ hr =>
      (alike_expect hr.2).bind fun q q' _ hq => .ok ⟨hr.1, hq⟩
  · exact (ih.choice hts (by omega)).bind fun r r' _ hr =>
      (alike_expect hr.2).bind fun q q' _ hq => .ok ⟨hr.1, hq⟩
  · exact .error rfl

/-- An access that is swapped is read as an index, and the accesses behind it like those behind the
name. -/
theorem access_item {name temp digits : String} {target value : Value} {t o n c t' : Lexeme}
    (ht : t.token = .ident name) (ho : o.token = .symbol .openBracket) (hn : n.token = .number digits)
    (hc : c.token = .symbol .closeBracket) (ht' : t'.token = .ident temp)
    (htarget : s.find? name = some target) (hvalue : s'.find? temp = some value)
    (hitem : target.at? (.number ((Decimal.read? digits.toList).getD 0)) = .ok value)
    (h : Swaps s s' false ts ts') (hf : 12 * (t :: o :: n :: c :: ts).length + 2 ≤ fuel + 1) :
    Alike (SameParsed s s') (parseAccess size (fuel + 1) (t :: o :: n :: c :: ts))
      (parseAccess size' (fuel + 1) (t' :: ts')) := by
  simp only [List.length_cons] at hf
  obtain ⟨fuel, rfl⟩ := Nat.exists_eq_add_of_le' (show 1 ≤ fuel by omega)
  obtain ⟨nt, n0, n1⟩ := n
  obtain ⟨ot, o0, o1⟩ := o
  obtain ⟨ct, c0, c1⟩ := c
  obtain ⟨tt, t0, t1⟩ := t
  obtain ⟨tt', t0', t1'⟩ := t'
  cases ht; cases ho; cases hn; cases hc; cases ht'
  have hkey : parseChoice size fuel (⟨.number digits, n0, n1⟩ :: ⟨.symbol .closeBracket, c0, c1⟩ :: ts) =
      .ok (.literal (.number ((Decimal.read? digits.toList).getD 0)) ⟨n0, n1⟩, n1,
        ⟨.symbol .closeBracket, c0, c1⟩ :: ts) := by
    have hderives : Derives .choice [⟨.number digits, n0, n1⟩]
        (.literal (.number ((Decimal.read? digits.toList).getD 0)) ⟨n0, n1⟩) :=
      Derives.choice_of_operand (.literal rfl)
    have hrecognised : Recognised size .choice _ _ := hderives.recognised
    exact (comes_parseChoice (by simp only [List.length_cons]; omega)).unique
      (hrecognised _ (closes_symbol rfl (by decide)))
  have hleft : parseAccess size (fuel + 1 + 1) (⟨.ident name, t0, t1⟩ ::
      ⟨.symbol .openBracket, o0, o1⟩ :: ⟨.number digits, n0, n1⟩ ::
        ⟨.symbol .closeBracket, c0, c1⟩ :: ts) =
      parseAccesses size (fuel + 1) t0 (.index (.ident name ⟨t0, t1⟩)
        (.literal (.number ((Decimal.read? digits.toList).getD 0)) ⟨n0, n1⟩) ⟨t0, c1⟩) c1 ts := by
    rw [((parsersSettle size fuel).accesses (by omega)).1, parseAccess]
    simp only [parseOperand, ok_bind, parseAccesses, hkey, expect]
    rfl
  have hright : parseAccess size' (fuel + 1 + 1) (⟨.ident temp, t0', t1'⟩ :: ts') =
      parseAccesses size' (fuel + 1) t0' (.ident temp ⟨t0', t1'⟩) t1' ts' := by
    rw [parseAccess]
    simp only [parseOperand, ok_bind]
    rfl
  rw [hleft, hright]
  refine ih.accesses h ?_ (by omega)
  simp only [Expr.eval, htarget, hvalue]
  exact hitem

theorem access_succ (h : Swaps s s' false ts ts') (hf : 12 * ts.length + 2 ≤ fuel + 1) :
    Alike (SameParsed s s') (parseAccess size (fuel + 1) ts) (parseAccess size' (fuel + 1) ts') := by
  cases h with
  | nil =>
    obtain ⟨n, rfl⟩ := Nat.exists_eq_succ_of_ne_zero (show fuel ≠ 0 by simp at hf; omega)
    rw [parseAccess, parseAccess, parseOperand, parseOperand]
    exact .error rfl
  | keep ht hx hts =>
    rw [parseAccess, parseAccess]
    refine (ih.operand ht hx hts (by omega)).bind fun r r' ho hr => ?_
    have h1 := ((parsersDerive size fuel).operand ho).length_le
    exact ih.accesses hr.2 hr.1 (by omega)
  | item ht ho hn hc ht' htarget hvalue hitem hts =>
    exact ih.access_item ht ho hn hc ht' htarget hvalue hitem hts hf

end ParsersAlike

theorem parsersAlike (s s' : Scope) (size size' : Nat) : ∀ fuel, ParsersAlike s s' size size' fuel
  | 0 => by
    have hlevels : operatorTable.length = 7 := rfl
    constructor <;> intros <;> omega
  | fuel + 1 =>
    have ih := parsersAlike s s' size size' fuel
    ⟨ih.choice_succ, ih.level_succ, ih.operators_succ, ih.unary_succ, ih.access_succ,
      ih.accesses_succ, ih.operand_succ⟩

/-- Tokens that are swapped make an expression of the same value, or fail in the same way. -/
theorem alike_parseTokens (h : Swaps s s' false ts ts') :
    Alike (fun e e' => e.eval s = e'.eval s') (parseTokens size ts) (parseTokens size' ts') := by
  have hlen := h.length_le
  have hfuel : parseChoice size' (12 * (ts'.length + 1)) ts' =
      parseChoice size' (12 * (ts.length + 1)) ts' :=
    (comes_parseChoice (Nat.le_refl _)).unique (comes_parseChoice (by omega))
  have hchoice := (parsersAlike s s' size size' (12 * (ts.length + 1))).choice h (Nat.le_refl _)
  rw [← hfuel] at hchoice
  cases h with
  | nil => exact .error rfl
  | _ =>
    refine hchoice.bind fun r r' _ hr => ?_
    obtain ⟨e, stop, rest⟩ := r
    obtain ⟨e', stop', rest'⟩ := r'
    obtain ⟨he, hrest⟩ := hr
    dsimp only at he hrest ⊢
    cases hrest with
    | nil => exact .ok he
    | _ => exact .error rfl

end

end LiveMarkup
