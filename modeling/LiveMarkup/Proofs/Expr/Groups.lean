import LiveMarkup.Proofs.Expr.Accepted
import LiveMarkup.Expr.Eval

/-!
# Braces in expressions

The braces in an expression match (`Derives.balanced`).  So an expression that a pair of braces
encloses is a group (`Derives.inside`), and what is between two braces that do not belong to each
other is no expression (`not_balanced_inside`).  What an expression means depends on its tokens
alone, not on where they stand (`Derives.respan`).
-/

namespace LiveMarkup

/-! ## The depth of braces -/

/-- How a token changes the number of open braces. -/
def Token.braces : Token → Int
  | .symbol .openBrace => 1
  | .symbol .closeBrace => -1
  | _ => 0

/-- The number of braces that tokens open and leave open. -/
def braceDepth (ts : List Token) : Int :=
  (ts.map Token.braces).sum

@[simp] theorem braceDepth_nil : braceDepth [] = 0 :=
  rfl

@[simp] theorem braceDepth_cons (t : Token) (ts : List Token) :
    braceDepth (t :: ts) = t.braces + braceDepth ts := by
  rw [braceDepth, List.map_cons, List.sum_cons, braceDepth]

@[simp] theorem braceDepth_append (as bs : List Token) :
    braceDepth (as ++ bs) = braceDepth as + braceDepth bs := by
  rw [braceDepth, List.map_append, List.sum_append, braceDepth, braceDepth]

/-- Every brace has its partner. -/
structure Balanced (ts : List Token) : Prop where
  depth : braceDepth ts = 0
  take : ∀ n, 0 ≤ braceDepth (ts.take n)

theorem Balanced.single {t : Token} (h : t.braces = 0) : Balanced [t] := by
  refine ⟨by simp [h], fun n => ?_⟩
  cases n <;> simp [h]

theorem Balanced.append {as bs : List Token} (ha : Balanced as) (hb : Balanced bs) :
    Balanced (as ++ bs) := by
  refine ⟨by rw [braceDepth_append, ha.depth, hb.depth, add_zero], fun n => ?_⟩
  rw [List.take_append, braceDepth_append]
  exact add_nonneg (ha.take n) (hb.take _)

theorem Balanced.cons {t : Token} {ts : List Token} (h : t.braces = 0) (hts : Balanced ts) :
    Balanced (t :: ts) :=
  (Balanced.single h).append hts

theorem Balanced.group {ts : List Token} (h : Balanced ts) :
    Balanced (.symbol .openBrace :: ts ++ [.symbol .closeBrace]) := by
  have hopen : Token.braces (.symbol .openBrace) = 1 := rfl
  have hclose : Token.braces (.symbol .closeBrace) = -1 := rfl
  refine ⟨by simp [h.depth, hopen, hclose], fun n => ?_⟩
  cases n with
  | zero => simp
  | succ n =>
    have hts := h.take n
    rw [List.cons_append, List.take_succ_cons, braceDepth_cons, List.take_append,
      braceDepth_append, hopen]
    rcases n - ts.length with _ | m <;> simp [hclose] <;> omega

/-! ## Expressions -/

section

variable {c : Category} {ls : List Lexeme} {e : Expr}

theorem braces_of_operator {n : Nat} {row : List (Symbol × BinaryOp)} {s : Symbol} {op : BinaryOp}
    (hrow : operatorTable[n]? = some row) (hmem : (s, op) ∈ row) :
    Token.braces (.symbol s) = 0 := by
  have hop := (ofSymbol?_eq_some_iff.mpr ⟨row, hrow, hmem⟩).1
  cases s <;> first | rfl | cases hop

theorem braces_of_prefix {s : Symbol} {op : UnaryOp} (h : (s, op) ∈ prefixTable) :
    Token.braces (.symbol s) = 0 := by
  have hop := prefix_iff.mpr h
  cases s <;> first | rfl | cases hop

/-- The braces in an expression match. -/
theorem Derives.balanced (h : Derives c ls e) : Balanced (ls.map Lexeme.token) := by
  induction h with
  | choice _ ih | tighter _ _ ih | level _ ih | noPrefix _ ih | access _ ih => exact ih
  | conditional _ hquestion _ hcolon _ iht iha ihb =>
    rw [List.map_append, List.map_append, List.map_cons, List.map_cons]
    refine (iht.append (.cons ?_ iha)).append (.cons ?_ ihb)
    · rw [hquestion]; rfl
    · rw [hcolon]; rfl
  | binary hrow hmem _ ho _ ihl ihr =>
    rw [List.map_append, List.map_cons]
    refine ihl.append (.cons ?_ ihr)
    rw [ho]
    exact braces_of_operator hrow hmem
  | unary hmem ho _ ih =>
    rw [List.map_cons]
    refine .cons ?_ ih
    rw [ho]
    exact braces_of_prefix hmem
  | @member _ _ _ dot property _ hdot hproperty ih =>
    rw [List.map_append, List.map_cons, List.map_singleton]
    refine ih.append (.cons ?_ (.single ?_))
    · rw [hdot]; rfl
    · cases hp : property.token <;> rw [hp] at hproperty <;> first | rfl | cases hproperty
  | index _ hopening _ hclosing ih ihk =>
    rw [List.map_append, List.map_append, List.map_cons, List.map_singleton]
    refine (ih.append (.cons ?_ ihk)).append (.single ?_)
    · rw [hopening]; rfl
    · rw [hclosing]; rfl
  | @literal _ t ht =>
    rw [List.map_singleton]
    refine .single ?_
    cases hp : t.token <;> rw [hp] at ht <;> first | rfl | cases ht
  | ident ht =>
    rw [List.map_singleton]
    refine .single ?_
    rw [ht]
    rfl
  | group hmem hopening _ hclosing ih =>
    rw [List.map_append, List.map_cons, List.map_singleton, hopening, hclosing]
    simp only [groupTable, List.mem_cons, Prod.mk.injEq, List.not_mem_nil, or_false] at hmem
    rcases hmem with ⟨rfl, rfl⟩ | ⟨rfl, rfl⟩
    · exact (Balanced.cons rfl ih).append (.single rfl)
    · exact ih.group

/-! ## Expressions between braces -/

/-- Tokens start with an opening brace and end with a closing one that belongs to another. -/
def OuterBracesApart (ts : List Token) : Prop :=
  ts.head? = some (.symbol .openBrace) ∧ ts.getLast? = some (.symbol .closeBrace) ∧
    ∃ n < ts.length, 0 < n ∧ braceDepth (ts.take n) = 0

instance (ts : List Token) : Decidable (OuterBracesApart ts) :=
  inferInstanceAs (Decidable (_ ∧ _ ∧ _))

theorem take_of_append {as bs : List Lexeme} (has : as ≠ []) (hbs : bs ≠ [])
    (hbalanced : Balanced (as.map Lexeme.token)) :
    ∃ n < ((as ++ bs).map Lexeme.token).length, 0 < n ∧
      braceDepth (((as ++ bs).map Lexeme.token).take n) = 0 := by
  refine ⟨as.length, ?_, List.length_pos_of_ne_nil has, ?_⟩
  · have := List.length_pos_of_ne_nil hbs
    rw [List.length_map, List.length_append]
    omega
  · rw [List.map_append, List.take_left' (List.length_map _)]
    exact hbalanced.depth

/-- An expression that one pair of braces encloses is a group. -/
theorem Derives.inside (h : Derives c ls e) {opening closing : Lexeme} {ms : List Lexeme}
    (hls : ls = opening :: ms ++ [closing]) (hopening : opening.token = .symbol .openBrace)
    (hone : ¬ ∃ n < (ls.map Lexeme.token).length, 0 < n ∧
      braceDepth ((ls.map Lexeme.token).take n) = 0) :
    Derives .choice ms e := by
  induction h with
  | choice _ ih | tighter _ _ ih | level _ ih | noPrefix _ ih | access _ ih => exact ih hls hone
  | conditional ht _ _ _ _ =>
    rw [List.append_assoc] at hone
    exact absurd (take_of_append ht.ne_nil (by simp) ht.balanced) hone
  | binary _ _ hl _ _ =>
    exact absurd (take_of_append hl.ne_nil (by simp) hl.balanced) hone
  | unary hmem ho _ =>
    obtain ⟨rfl, -⟩ := List.cons.inj hls
    rw [hopening] at ho
    cases ho
    exact absurd (prefix_iff.mpr hmem) (by simp [UnaryOp.ofSymbol?])
  | member ht _ _ =>
    exact absurd (take_of_append ht.ne_nil (by simp) ht.balanced) hone
  | index ht _ _ _ =>
    rw [List.append_assoc] at hone
    exact absurd (take_of_append ht.ne_nil (by simp) ht.balanced) hone
  | literal => simp at hls
  | ident => simp at hls
  | group _ _ hts _ =>
    obtain ⟨hfront, -⟩ := List.append_inj' hls rfl
    obtain ⟨-, rfl⟩ := List.cons.inj hfront
    exact hts

/-- What is between two braces that do not belong to each other is no expression. -/
theorem not_balanced_inside {ms : List Token}
    (h : OuterBracesApart (.symbol .openBrace :: ms ++ [.symbol .closeBrace])) : ¬ Balanced ms := by
  intro hms
  obtain ⟨-, -, n, hn, hpos, hdepth⟩ := h
  obtain ⟨n, rfl⟩ := Nat.exists_eq_succ_of_ne_zero hpos.ne'
  have hle : n ≤ ms.length := by
    rw [List.length_append, List.length_cons, List.length_singleton] at hn
    omega
  have hopen : Token.braces (.symbol .openBrace) = 1 := rfl
  rw [List.cons_append, Nat.succ_eq_add_one, List.take_succ_cons, List.take_append_of_le_length hle,
    braceDepth_cons, hopen] at hdepth
  have := hms.take n
  omega

/-! ## Where tokens stand -/

/-- The same tokens at other places stand for a tree that means the same. -/
theorem Derives.respan (h : Derives c ls e) {ls' : List Lexeme}
    (hls : ls'.map Lexeme.token = ls.map Lexeme.token) :
    ∃ e', Derives c ls' e' ∧ ∀ s, e'.eval s = e.eval s := by
  induction h generalizing ls' with
  | choice _ ih =>
    obtain ⟨e', he, heval⟩ := ih hls
    exact ⟨e', .choice he, heval⟩
  | tighter hn _ ih =>
    obtain ⟨e', he, heval⟩ := ih hls
    exact ⟨e', .tighter hn he, heval⟩
  | level _ ih =>
    obtain ⟨e', he, heval⟩ := ih hls
    exact ⟨e', .level he, heval⟩
  | noPrefix _ ih =>
    obtain ⟨e', he, heval⟩ := ih hls
    exact ⟨e', .noPrefix he, heval⟩
  | access _ ih =>
    obtain ⟨e', he, heval⟩ := ih hls
    exact ⟨e', .access he, heval⟩
  | conditional _ hquestion _ hcolon _ iht iha ihb =>
    rw [List.map_append, List.map_append, List.map_cons, List.map_cons] at hls
    obtain ⟨front, back, rfl, hfront, hback⟩ := List.map_eq_append_iff.mp hls
    obtain ⟨ts, mid, rfl, hts, hmid⟩ := List.map_eq_append_iff.mp hfront
    obtain ⟨q, as, rfl, hq, has⟩ := List.map_eq_cons_iff.mp hmid
    obtain ⟨k, bs, rfl, hk, hbs⟩ := List.map_eq_cons_iff.mp hback
    obtain ⟨test, ht, hteval⟩ := iht hts
    obtain ⟨a, ha, haeval⟩ := iha has
    obtain ⟨b, hb, hbeval⟩ := ihb hbs
    refine ⟨_, .conditional ht (hq.trans hquestion) ha (hk.trans hcolon) hb, fun s => ?_⟩
    simp only [Expr.eval, hteval, haeval, hbeval]
  | binary hrow hmem _ ho _ ihl ihr =>
    rw [List.map_append, List.map_cons] at hls
    obtain ⟨ls, back, rfl, hl, hback⟩ := List.map_eq_append_iff.mp hls
    obtain ⟨o, rs, rfl, ho', hr⟩ := List.map_eq_cons_iff.mp hback
    obtain ⟨l, hl, hleval⟩ := ihl hl
    obtain ⟨r, hr, hreval⟩ := ihr hr
    refine ⟨_, .binary hrow hmem hl (ho'.trans ho) hr, fun s => ?_⟩
    simp only [Expr.eval, hleval, hreval]
  | unary hmem ho _ ih =>
    obtain ⟨o, ts, rfl, ho', hts⟩ := List.map_eq_cons_iff.mp hls
    obtain ⟨e', he, heval⟩ := ih hts
    refine ⟨_, .unary hmem (ho'.trans ho) he, fun s => ?_⟩
    simp only [Expr.eval, heval]
  | member _ hdot hproperty ih =>
    rw [List.map_append] at hls
    obtain ⟨ts, back, rfl, hts, hback⟩ := List.map_eq_append_iff.mp hls
    obtain ⟨d, back, rfl, hd, hback⟩ := List.map_eq_cons_iff.mp hback
    obtain ⟨p, rfl, hp⟩ := List.map_eq_singleton_iff.mp hback
    obtain ⟨e', he, heval⟩ := ih hts
    refine ⟨_, .member he (hd.trans hdot) (by rw [hp]; exact hproperty), fun s => ?_⟩
    simp only [Expr.eval, heval]
  | index _ hopening _ hclosing ih ihk =>
    rw [List.map_append, List.map_append, List.map_cons, List.map_singleton] at hls
    obtain ⟨front, back, rfl, hfront, hback⟩ := List.map_eq_append_iff.mp hls
    obtain ⟨ts, mid, rfl, hts, hmid⟩ := List.map_eq_append_iff.mp hfront
    obtain ⟨o, ks, rfl, ho, hks⟩ := List.map_eq_cons_iff.mp hmid
    obtain ⟨k, rfl, hk⟩ := List.map_eq_singleton_iff.mp hback
    obtain ⟨e', he, heval⟩ := ih hts
    obtain ⟨key, hkey, hkeyeval⟩ := ihk hks
    refine ⟨_, .index he (ho.trans hopening) hkey (hk.trans hclosing), fun s => ?_⟩
    simp only [Expr.eval, heval, hkeyeval]
  | literal ht =>
    obtain ⟨t, rfl, ht'⟩ := List.map_eq_singleton_iff.mp hls
    exact ⟨_, .literal (by rw [ht']; exact ht), fun s => rfl⟩
  | ident ht =>
    obtain ⟨t, rfl, ht'⟩ := List.map_eq_singleton_iff.mp hls
    exact ⟨_, .ident (ht'.trans ht), fun s => rfl⟩
  | group hmem hopening _ hclosing ih =>
    rw [List.map_append, List.map_cons, List.map_singleton] at hls
    obtain ⟨front, back, rfl, hfront, hback⟩ := List.map_eq_append_iff.mp hls
    obtain ⟨o, ts, rfl, ho, hts⟩ := List.map_eq_cons_iff.mp hfront
    obtain ⟨k, rfl, hk⟩ := List.map_eq_singleton_iff.mp hback
    obtain ⟨e', he, heval⟩ := ih hts
    exact ⟨e', .group hmem (ho.trans hopening) he (hk.trans hclosing), heval⟩

end

/-! ## Errors -/

/-- What can be wrong does not lie in the text of an expression. -/
def NotSyntactic {α : Type} (x : Except ExprError α) : Prop :=
  ∀ err, x = .error err → err.isSyntactic = false

theorem NotSyntactic.ok {α : Type} (a : α) : NotSyntactic (.ok a) :=
  fun _ h => nomatch h

theorem NotSyntactic.bind {α β : Type} {x : Except ExprError α} {f : α → Except ExprError β}
    (hx : NotSyntactic x) (hf : ∀ a, NotSyntactic (f a)) : NotSyntactic (x >>= f) := by
  rcases x with err | a
  · exact fun _ h => hx _ (by cases h; rfl)
  · exact hf a

theorem notSyntactic_property (target : Value) (name : String) :
    NotSyntactic (target.property name) := by
  intro err h
  unfold Value.property at h
  split at h <;> cases h <;> rfl

theorem notSyntactic_at? (target key : Value) : NotSyntactic (target.at? key) := by
  intro err h
  unfold Value.at? at h
  split at h
  · cases h
    rfl
  · cases h
    rfl
  · cases h
  · split_ifs at h
    exact notSyntactic_property _ _ err h
  · cases h

/-- What is wrong when an expression is evaluated does not lie in its text. -/
theorem notSyntactic_eval (s : Scope) (e : Expr) : NotSyntactic (e.eval s) := by
  induction e with
  | literal => exact .ok _
  | ident name =>
    intro err h
    simp only [Expr.eval] at h
    split at h <;> cases h
    rfl
  | member object property _ ih => exact ih.bind fun v => notSyntactic_property v property
  | index object key _ iho ihk => exact iho.bind fun v => ihk.bind fun k => notSyntactic_at? v k
  | unary op operand _ ih => exact ih.bind fun v => .ok _
  | binary op left right _ ihl ihr =>
    refine ihl.bind fun v => ?_
    split
    · split_ifs
      · exact ihr
      · exact .ok _
    · split_ifs
      · exact .ok _
      · exact ihr
    · split_ifs
      · exact ihr
      · exact .ok _
    · exact ihr.bind fun w => .ok _
  | conditional test a b _ iht iha ihb =>
    refine iht.bind fun v => ?_
    split_ifs
    · exact iha
    · exact ihb

end LiveMarkup
