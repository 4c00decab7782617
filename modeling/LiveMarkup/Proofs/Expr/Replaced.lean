import LiveMarkup.Proofs.Expr.Groups
import LiveMarkup.Proofs.Expr.Pasting

/-!
# Replacing a name in the text and in the tree

An operand with accesses can stand wherever a name can: where the tokens of a name are replaced by its
tokens, the grammar derives the tree in which the name is replaced (`Derives.paste`).  Since the
replacement in the text leaves just these tokens, it is a replacement in the tree
(`parseExpr_substitute`).
-/

namespace LiveMarkup

variable {x : String} {us : List Token} {b : Bool} {c : Category} {ls ls' fs : List Lexeme} {e f : Expr}

/-! ## Trees -/

namespace Expr

/-- The tree with a tree in place of every node of a name. -/
def replace (e : Expr) (x : String) (f : Expr) : Expr :=
  match e with
  | literal value span => literal value span
  | ident name span => if name = x then f else ident name span
  | member e name span => member (e.replace x f) name span
  | index e k span => index (e.replace x f) (k.replace x f) span
  | unary op e span => unary op (e.replace x f) span
  | binary op l r span => binary op (l.replace x f) (r.replace x f) span
  | conditional t a b span => conditional (t.replace x f) (a.replace x f) (b.replace x f) span

/-- The tree, no matter where it was read. -/
def bare : Expr → Expr
  | literal value _ => literal value default
  | ident name _ => ident name default
  | member e name _ => member e.bare name default
  | index e k _ => index e.bare k.bare default
  | unary op e _ => unary op e.bare default
  | binary op l r _ => binary op l.bare r.bare default
  | conditional t a b _ => conditional t.bare a.bare b.bare default

end Expr

/-! ## Tokens of expressions -/

theorem isChain_symbol {as bs : List Token} (s : Symbol) (has : as.IsChain Token.Separate)
    (hbs : bs.IsChain Token.Separate) : (as ++ .symbol s :: bs).IsChain Token.Separate := by
  refine has.append (List.isChain_cons.mpr ⟨fun _ _ => .inl rfl, hbs⟩) fun t _ u hu => .inr ?_
  obtain rfl : .symbol s = u := by simpa using hu
  rfl

/-- Of two neighbours in an expression one is a symbol. -/
theorem Derives.separate (h : Derives c ls e) : (ls.map Lexeme.token).IsChain Token.Separate := by
  induction h with
  | choice _ ih | tighter _ _ ih | level _ ih | noPrefix _ ih | access _ ih => exact ih
  | conditional _ hquestion _ hcolon _ iht iha ihb =>
    simp only [List.map_append, List.map_cons, hquestion, hcolon]
    exact isChain_symbol _ (isChain_symbol _ iht iha) ihb
  | binary _ _ _ ho _ ihl ihr =>
    simp only [List.map_append, List.map_cons, ho]
    exact isChain_symbol _ ihl ihr
  | unary _ ho _ ih =>
    rw [List.map_cons, ho]
    exact isChain_symbol _ .nil ih
  | member _ hdot _ ih =>
    simp only [List.map_append, List.map_cons, List.map_nil, hdot]
    exact isChain_symbol _ ih (.singleton _)
  | index _ hopening _ hclosing ih ihk =>
    simp only [List.map_append, List.map_cons, List.map_nil, hopening, hclosing]
    exact isChain_symbol _ (isChain_symbol _ ih ihk) .nil
  | literal => exact .singleton _
  | ident => exact .singleton _
  | group _ hopening _ hclosing ih =>
    simp only [List.map_append, List.map_cons, List.map_nil, hopening, hclosing]
    exact isChain_symbol _ (isChain_symbol _ .nil ih) .nil

theorem Derives.tokens_ne_nil (h : Derives c ls e) : ls.map Lexeme.token ≠ [] :=
  fun hnil => h.ne_nil (List.map_eq_nil_iff.mp hnil)

/-- A symbol at the end of an expression closes something. -/
theorem Derives.closes (h : Derives c ls e) :
    ∀ s, (ls.map Lexeme.token).getLast? = some (.symbol s) → s ∈ closings := by
  induction h with
  | choice _ ih | tighter _ _ ih | level _ ih | noPrefix _ ih | access _ ih => exact ih
  | conditional _ _ _ _ hb _ _ ihb =>
    rw [List.map_append, List.map_cons, List.getLast?_append_of_ne_nil _ (List.cons_ne_nil _ _),
      List.getLast?_cons_of_ne_nil hb.tokens_ne_nil]
    exact ihb
  | binary _ _ _ _ hr _ ihr =>
    rw [List.map_append, List.map_cons, List.getLast?_append_of_ne_nil _ (List.cons_ne_nil _ _),
      List.getLast?_cons_of_ne_nil hr.tokens_ne_nil]
    exact ihr
  | unary _ _ he ih =>
    rw [List.map_cons, List.getLast?_cons_of_ne_nil he.tokens_ne_nil]
    exact ih
  | @member _ _ _ _ property _ _ hproperty _ =>
    rw [List.map_append, List.map_cons, List.getLast?_append_of_ne_nil _ (List.cons_ne_nil _ _)]
    intro s hs
    have hs : property.token = .symbol s := by simpa using hs
    rw [hs] at hproperty
    cases hproperty
  | index _ _ _ hclosing =>
    rw [List.map_append, List.map_singleton, hclosing, List.getLast?_concat]
    rintro s ⟨⟩
    decide
  | @literal _ t ht =>
    intro s hs
    have hs : t.token = .symbol s := by simpa using hs
    rw [hs] at ht
    cases ht
  | @ident _ t ht =>
    intro s hs
    have hs : t.token = .symbol s := by simpa using hs
    rw [hs] at ht
    cases ht
  | group hmem _ _ hclosing =>
    rw [List.map_append, List.map_singleton, hclosing, List.getLast?_concat]
    rintro s ⟨⟩
    have table : ∀ p ∈ groupTable, p.2 ∈ closings := by decide
    exact table _ hmem

/-- A symbol at the start of an operand with accesses opens something. -/
theorem Derives.opens (h : Derives c ls e) (hc : c = .access ∨ c = .operand) :
    ∀ s, (ls.map Lexeme.token).head? = some (.symbol s) → s ∈ openings := by
  induction h with
  | choice | conditional | tighter | binary | level | unary | noPrefix => simp at hc
  | access _ ih => exact ih (.inr rfl)
  | member h _ _ ih =>
    rw [List.map_append, List.head?_append_of_ne_nil _ h.tokens_ne_nil]
    exact ih (.inl rfl)
  | index h _ _ _ ih =>
    rw [List.append_assoc, List.map_append, List.head?_append_of_ne_nil _ h.tokens_ne_nil]
    exact ih (.inl rfl)
  | @literal _ t ht =>
    intro s hs
    have hs : t.token = .symbol s := by simpa using hs
    rw [hs] at ht
    cases ht
  | @ident _ t ht =>
    intro s hs
    have hs : t.token = .symbol s := by simpa using hs
    rw [hs] at ht
    cases ht
  | group hmem hopening =>
    rw [List.cons_append, List.map_cons, hopening]
    rintro s ⟨⟩
    have table : ∀ p ∈ groupTable, p.1 ∈ openings := by decide
    exact table _ hmem

theorem Derives.operandlike (h : Derives .access ls e) : Operandlike (ls.map Lexeme.token) where
  nonempty := h.tokens_ne_nil
  separate := h.separate
  opens := h.opens (.inl rfl)
  closes := h.closes

/-! ## Replacing tokens -/

@[simp] theorem paste_nil : paste x us b [] = [] := rfl

theorem paste_keep {t : Token} (ht : t ≠ .ident x) (ts : List Token) :
    paste x us b (t :: ts) = t :: paste x us (t = .symbol .dot) ts := by
  simp [paste, ht]

theorem paste_symbol {s : Symbol} (hs : s ≠ .dot) (ts : List Token) :
    paste x us b (.symbol s :: ts) = .symbol s :: paste x us false ts := by
  simp [paste_keep, hs]

theorem operator_ne_dot {n : Nat} {row : List (Symbol × BinaryOp)} {s : Symbol} {op : BinaryOp}
    (hrow : operatorTable[n]? = some row) (hmem : (s, op) ∈ row) : s ≠ .dot := by
  rintro rfl
  cases (ofSymbol?_eq_some_iff.mpr ⟨row, hrow, hmem⟩).1

theorem paste_append {as bs : List Token} (has : as ≠ [])
    (hdot : as.getLast? ≠ some (.symbol .dot)) :
    paste x us b (as ++ bs) = paste x us b as ++ paste x us false bs := by
  induction as generalizing b with
  | nil => exact absurd rfl has
  | cons t as ih =>
    rw [List.cons_append, paste, paste, List.append_assoc]
    by_cases hnil : as = []
    · subst hnil
      have ht : t ≠ .symbol .dot := by simpa using hdot
      simp [paste, ht]
    · rw [List.getLast?_cons_of_ne_nil hnil] at hdot
      rw [ih hnil hdot]

theorem Derives.paste_append (h : Derives c ls e) (bs : List Token) :
    paste x us b (ls.map Lexeme.token ++ bs) =
      paste x us b (ls.map Lexeme.token) ++ paste x us false bs :=
  LiveMarkup.paste_append h.tokens_ne_nil fun hdot => absurd (h.closes _ hdot) (by decide)

/-- What an expression of a category becomes where names in it are replaced. -/
def Category.spread : Category → Category
  | .operand => .access
  | c => c

/-- Tokens can stand for a tree wherever they stand. -/
def Placeable (us : List Token) (f : Expr) : Prop :=
  ∀ ls : List Lexeme, ls.map Lexeme.token = us → ∃ f', Derives .access ls f' ∧ f'.bare = f.bare

/-- Where the tokens of a name are replaced, so is the name in the tree. -/
theorem Derives.paste (hf : Placeable us f) (h : Derives c ls e)
    (hls : ls'.map Lexeme.token = paste x us false (ls.map Lexeme.token)) :
    ∃ e', Derives c.spread ls' e' ∧ e'.bare = (e.replace x f).bare := by
  induction h generalizing ls' with
  | choice _ ih =>
    obtain ⟨e', he, hbare⟩ := ih hls
    exact ⟨e', .choice he, hbare⟩
  | tighter hn _ ih =>
    obtain ⟨e', he, hbare⟩ := ih hls
    exact ⟨e', .tighter hn he, hbare⟩
  | level _ ih =>
    obtain ⟨e', he, hbare⟩ := ih hls
    exact ⟨e', .level he, hbare⟩
  | noPrefix _ ih =>
    obtain ⟨e', he, hbare⟩ := ih hls
    exact ⟨e', .noPrefix he, hbare⟩
  | access _ ih => exact ih hls
  | conditional htest hquestion ha hcolon _ iht iha ihb =>
    simp only [List.map_append, List.map_cons, hquestion, hcolon, List.append_assoc,
      List.cons_append, htest.paste_append, ha.paste_append,
      paste_symbol (show Symbol.question ≠ .dot by decide),
      paste_symbol (show Symbol.colon ≠ .dot by decide)] at hls
    rw [← List.cons_append, ← List.append_assoc] at hls
    obtain ⟨front, back, rfl, hfront, hback⟩ := List.map_eq_append_iff.mp hls
    obtain ⟨ts, mid, rfl, hts, hmid⟩ := List.map_eq_append_iff.mp hfront
    obtain ⟨q, as, rfl, hq, has⟩ := List.map_eq_cons_iff.mp hmid
    obtain ⟨k, bs, rfl, hk, hbs⟩ := List.map_eq_cons_iff.mp hback
    obtain ⟨test, ht, hteq⟩ := iht hts
    obtain ⟨a, ha, haeq⟩ := iha has
    obtain ⟨b, hb, hbeq⟩ := ihb hbs
    refine ⟨_, .conditional ht hq ha hk hb, ?_⟩
    simp only [Expr.replace, Expr.bare, hteq, haeq, hbeq]
  | binary hrow hmem hleft ho _ ihl ihr =>
    simp only [List.map_append, List.map_cons, ho, hleft.paste_append,
      paste_symbol (operator_ne_dot hrow hmem)] at hls
    obtain ⟨ls, back, rfl, hl, hback⟩ := List.map_eq_append_iff.mp hls
    obtain ⟨o, rs, rfl, ho', hr⟩ := List.map_eq_cons_iff.mp hback
    obtain ⟨l, hl, hleq⟩ := ihl hl
    obtain ⟨r, hr, hreq⟩ := ihr hr
    refine ⟨_, .binary hrow hmem hl ho' hr, ?_⟩
    simp only [Expr.replace, Expr.bare, hleq, hreq]
  | unary hmem ho _ ih =>
    have hdot : ∀ p ∈ prefixTable, p.1 ≠ .dot := by decide
    rw [List.map_cons, ho, paste_symbol (hdot _ hmem)] at hls
    obtain ⟨o, ts, rfl, ho', hts⟩ := List.map_eq_cons_iff.mp hls
    obtain ⟨e', he, heq⟩ := ih hts
    refine ⟨_, .unary hmem ho' he, ?_⟩
    simp only [Expr.replace, Expr.bare, heq]
  | @member _ _ _ _ property h hdot hproperty ih =>
    -- the name after the dot is a property and stays
    have hback : LiveMarkup.paste x us false [.symbol .dot, property.token] =
        [.symbol .dot, property.token] := by simp [LiveMarkup.paste]
    rw [List.map_append, List.map_cons, List.map_singleton, hdot, h.paste_append, hback] at hls
    obtain ⟨ts, back, rfl, hts, hback⟩ := List.map_eq_append_iff.mp hls
    obtain ⟨d, back, rfl, hd, hback⟩ := List.map_eq_cons_iff.mp hback
    obtain ⟨p, rfl, hp⟩ := List.map_eq_singleton_iff.mp hback
    obtain ⟨e', he, heq⟩ := ih hts
    refine ⟨_, .member he hd (by rw [hp]; exact hproperty), ?_⟩
    simp only [Expr.replace, Expr.bare, heq]
  | index h hopening hk hclosing ih ihk =>
    simp only [List.map_append, List.map_cons, List.map_nil, hopening, hclosing, List.append_assoc,
      List.cons_append, h.paste_append, hk.paste_append,
      paste_symbol (show Symbol.openBracket ≠ .dot by decide),
      paste_symbol (show Symbol.closeBracket ≠ .dot by decide), paste_nil] at hls
    rw [← List.cons_append, ← List.append_assoc] at hls
    obtain ⟨front, back, rfl, hfront, hback⟩ := List.map_eq_append_iff.mp hls
    obtain ⟨ts, mid, rfl, hts, hmid⟩ := List.map_eq_append_iff.mp hfront
    obtain ⟨o, ks, rfl, ho, hks⟩ := List.map_eq_cons_iff.mp hmid
    obtain ⟨k, rfl, hk⟩ := List.map_eq_singleton_iff.mp hback
    obtain ⟨e', he, heq⟩ := ih hts
    obtain ⟨key, hkey, hkeyeq⟩ := ihk hks
    refine ⟨_, .index he ho hkey hk, ?_⟩
    simp only [Expr.replace, Expr.bare, heq, hkeyeq]
  | @literal _ t ht =>
    have hname : t.token ≠ .ident x := by
      intro h
      rw [h] at ht
      cases ht
    rw [List.map_singleton, paste_keep hname, paste_nil] at hls
    obtain ⟨t, rfl, ht'⟩ := List.map_eq_singleton_iff.mp hls
    exact ⟨_, .access (.literal (by rw [ht']; exact ht)), rfl⟩
  | @ident name t ht =>
    rw [List.map_singleton, ht] at hls
    by_cases hname : name = x
    · subst hname
      have hpaste : LiveMarkup.paste name us false [.ident name] = us := by simp [LiveMarkup.paste]
      obtain ⟨f', hf', hbare⟩ := hf ls' (hls.trans hpaste)
      exact ⟨f', hf', by simpa [Expr.replace] using hbare⟩
    · rw [paste_keep (by simpa using hname), paste_nil] at hls
      obtain ⟨t, rfl, ht'⟩ := List.map_eq_singleton_iff.mp hls
      refine ⟨_, .access (.ident ht'), ?_⟩
      simp only [Expr.replace, if_neg hname, Expr.bare]
  | @group _ _ s s' _ _ hmem hopening h hclosing ih =>
    have hdot : ∀ p ∈ groupTable, p.1 ≠ .dot ∧ p.2 ≠ .dot := by decide
    simp only [List.map_append, List.map_cons, List.map_nil, hopening, hclosing, List.cons_append,
      h.paste_append, paste_symbol (hdot _ hmem).1, paste_symbol (hdot _ hmem).2, paste_nil] at hls
    rw [← List.cons_append] at hls
    obtain ⟨front, back, rfl, hfront, hback⟩ := List.map_eq_append_iff.mp hls
    obtain ⟨o, ts, rfl, ho, hts⟩ := List.map_eq_cons_iff.mp hfront
    obtain ⟨k, rfl, hk⟩ := List.map_eq_singleton_iff.mp hback
    obtain ⟨e', he, heq⟩ := ih hts
    exact ⟨e', .access (.group hmem ho he hk), heq⟩

theorem paste_self (x : String) (ts : List Token) : paste x [.ident x] b ts = ts := by
  induction ts generalizing b with
  | nil => rfl
  | cons t ts ih =>
    rw [paste, ih]
    split_ifs with h
    · simp only [Bool.and_eq_true, decide_eq_true_eq] at h
      rw [h.1]
      rfl
    · rfl

theorem Expr.bare_replace_self (e : Expr) (x : String) (span : Span) :
    (e.replace x (.ident x span)).bare = e.bare := by
  induction e with
  | literal => rfl
  | ident name =>
    rw [replace]
    split_ifs with h
    · rw [h]
      rfl
    · rfl
  | member _ _ _ ih | unary _ _ _ ih => simp only [replace, bare, ih]
  | index _ _ _ ihe ihk => simp only [replace, bare, ihe, ihk]
  | binary _ _ _ _ ihl ihr => simp only [replace, bare, ihl, ihr]
  | conditional _ _ _ _ iht iha ihb => simp only [replace, bare, iht, iha, ihb]

/-- A name can be replaced by itself, and so the tokens stand for the tree wherever they stand. -/
theorem Derives.placeable (h : Derives .access fs f) : Placeable (fs.map Lexeme.token) f := by
  intro ls hls
  have hname : Placeable [.ident ""] (.ident "" default) := fun ls hls => by
    obtain ⟨t, rfl, ht⟩ := List.map_eq_singleton_iff.mp hls
    exact ⟨_, .access (.ident ht), rfl⟩
  obtain ⟨f', hf', hbare⟩ := h.paste hname (hls.trans (paste_self "" _).symm)
  exact ⟨f', hf', hbare.trans (f.bare_replace_self "" default)⟩

/-! ## Replacing in the text -/

/-- No number stands right before a dot. -/
def NoPointAfterNumber (ts : List Lexeme) : Prop :=
  ts.IsChain fun a b => a.token.isNumber = true → b.token = .symbol .dot → a.stop ≠ b.start

theorem eq_dot_of_scanToken {r rest : List Char} {s : Symbol}
    (h : scanToken ('.' :: r) = some (.symbol s, rest)) : s = .dot := by
  obtain ⟨-, heq, -⟩ := readable_of_scanToken h
  obtain ⟨c, w, hs, -, -, hdot⟩ := s.spelling_head
  rw [Token.spelling, hs, List.cons_append] at heq
  exact hdot (List.cons.inj heq).1.symm

/-- A token that starts with a dot starts where the text does. -/
theorem head_of_lexFrom {fuel pos : Nat} {r : List Char} {ts : List Lexeme}
    (h : lexFrom (fuel + 1) pos ('.' :: r) = .ok ts) : ∃ t us, ts = t :: us ∧ t.start = pos ∧
      (t.token.isSymbol = true → t.token = .symbol .dot) := by
  have hblank : ¬ isTokenBlank '.' = true := by decide
  simp only [lexFrom, List.takeWhile_cons_of_neg hblank, List.dropWhile_cons_of_neg hblank] at h
  split at h
  · cases h
  · rename_i token rest hs
    obtain ⟨us, -, h⟩ := bind_eq_ok_iff.mp h
    cases h
    refine ⟨_, us, rfl, rfl, fun hsymbol => ?_⟩
    cases token with
    | symbol s => rw [eq_dot_of_scanToken hs]
    | reserved | ident | string | number => cases hsymbol

theorem lexesApart_of_lexFrom : ∀ {fuel pos : Nat} {cs : List Char} {ts : List Lexeme},
    cs.length < fuel → lexFrom fuel pos cs = .ok ts → NoPointAfterNumber ts →
      (ts.map Lexeme.token).IsChain Token.Separate → LexesApart cs (ts.map Lexeme.token)
  | fuel + 1, pos, cs, ts, hlen, h, hpoint, hsep => by
    simp only [lexFrom] at h
    have hcut := List.takeWhile_append_dropWhile (p := isTokenBlank) (l := cs)
    have hblank : ∀ c ∈ cs.takeWhile isTokenBlank, isTokenBlank c = true :=
      List.all_eq_true.mp List.all_takeWhile
    split at h
    · rename_i hd
      cases h
      rw [hd, List.append_nil] at hcut
      exact .nil (hcut ▸ hblank)
    · split at h
      · cases h
      · rename_i rest hs
        obtain ⟨ts', hts, h⟩ := bind_eq_ok_iff.mp h
        cases h
        have hlt := length_lt_of_scanToken hs
        have hle := List.length_dropWhile_le isTokenBlank cs
        obtain ⟨hnext, hpoint⟩ := List.isChain_cons.mp hpoint
        obtain ⟨hsymbol, hsep⟩ := List.isChain_cons.mp hsep
        refine hcut ▸ .cons hblank hs (fun hnumber hdot => ?_)
          (lexesApart_of_lexFrom (by omega) hts hpoint hsep)
        obtain ⟨r, rfl⟩ := List.head?_eq_some_iff.mp hdot
        obtain ⟨n, rfl⟩ := Token.exists_of_isNumber hnumber
        obtain ⟨m, rfl⟩ : ∃ m, fuel = m + 1 := ⟨fuel - 1, by grind⟩
        obtain ⟨t, us, rfl, hstart, ht⟩ := head_of_lexFrom hts
        have ht := ht ((hsymbol t.token rfl).resolve_left Bool.false_ne_true)
        exact hnext t rfl rfl ht hstart.symm

/-- Replacing a name in a text by an operand with accesses is replacing it in the tree. -/
theorem parseExpr_substitute {x new source : List Char} {ts us : List Lexeme} {e f : Expr}
    (hx : Reserved.ofSpelling? (String.ofList x) = none) (hts : tokenize source = .ok ts)
    (he : parseExpr source = .ok e) (hpoint : NoPointAfterNumber ts) (hus : tokenize new = .ok us)
    (hf : Derives .access us f) :
    ∃ e', parseExpr (substitute x new source) = .ok e' ∧
      e'.bare = (e.replace (String.ofList x) f).bare := by
  have hderives : Derives .choice ts e := by
    rw [parseExpr, hts, ok_bind] at he
    exact parseTokens_eq_ok_iff.mp he
  have hlexes : Lexes (substitute x new source)
      (paste (String.ofList x) (us.map Lexeme.token) false (ts.map Lexeme.token)) :=
    (lexesApart_of_lexFrom (Nat.lt_succ_self _) hts hpoint hderives.separate).lexes_substituteAt hx
      hf.operandlike (lexes_iff_tokenize.mpr ⟨us, hus, rfl⟩) hderives.separate
  obtain ⟨ls, hls, htokens⟩ := lexes_iff_tokenize.mp hlexes
  obtain ⟨e', he', hbare⟩ := hderives.paste hf.placeable htokens
  refine ⟨e', ?_, hbare⟩
  rw [parseExpr, hls, ok_bind]
  exact parseTokens_eq_ok_iff.mpr he'

/-- The tokens of `item.item+'item'`. -/
def itemTokens : List Lexeme :=
  [⟨.ident "item", 0, 4⟩, ⟨.symbol .dot, 4, 5⟩, ⟨.ident "item", 5, 9⟩, ⟨.symbol .plus, 9, 10⟩,
    ⟨.string "'item'", 10, 16⟩]

/-- The tokens of `items[0]`. -/
def firstTokens : List Lexeme :=
  [⟨.ident "items", 0, 5⟩, ⟨.symbol .openBracket, 5, 6⟩, ⟨.number "0", 6, 7⟩,
    ⟨.symbol .closeBracket, 7, 8⟩]

/-- The tree of `item.item+'item'`. -/
def itemExpr : Expr :=
  .binary .add (.member (.ident "item" ⟨0, 4⟩) "item" ⟨0, 9⟩) (.literal (.string "item") ⟨10, 16⟩)
    ⟨0, 16⟩

/-- The tree of `items[0]`. -/
def firstExpr : Expr :=
  .index (.ident "items" ⟨0, 5⟩) (.literal (.number 0) ⟨6, 7⟩) ⟨0, 8⟩

theorem derives_firstExpr : Derives .access firstTokens firstExpr := by
  have hkey : Derives .choice [⟨.number "0", 6, 7⟩] (.literal (.number 0) ⟨6, 7⟩) :=
    .choice_of_operand (.literal (by rfl))
  have hname : Derives .access [⟨.ident "items", 0, 5⟩] (.ident "items" ⟨0, 5⟩) :=
    .access (.ident rfl)
  exact .index hname rfl hkey rfl

/-- Neither the name of the property nor the text in the string is replaced. -/
theorem parseExpr_substitute_item :
    Reserved.ofSpelling? (String.ofList "item".toList) = none ∧
      tokenize "item.item+'item'".toList = .ok itemTokens ∧
      parseExpr "item.item+'item'".toList = .ok itemExpr ∧ NoPointAfterNumber itemTokens ∧
      tokenize "items[0]".toList = .ok firstTokens ∧ Derives .access firstTokens firstExpr ∧
      ∃ e', parseExpr (substitute "item".toList "items[0]".toList "item.item+'item'".toList) = .ok e' ∧
        e'.bare = (itemExpr.replace (String.ofList "item".toList) firstExpr).bare := by
  have hx : Reserved.ofSpelling? (String.ofList "item".toList) = none := by decide
  have hts : tokenize "item.item+'item'".toList = .ok itemTokens := by cbv
  have he : parseExpr "item.item+'item'".toList = .ok itemExpr := by cbv
  have hpoint : NoPointAfterNumber itemTokens := by
    simp [NoPointAfterNumber, itemTokens, Token.isNumber]
  have hus : tokenize "items[0]".toList = .ok firstTokens := by cbv
  exact ⟨hx, hts, he, hpoint, hus, derives_firstExpr,
    parseExpr_substitute hx hts he hpoint hus derives_firstExpr⟩

end LiveMarkup
