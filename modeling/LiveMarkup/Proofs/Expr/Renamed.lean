import LiveMarkup.Proofs.Expr.Seams
import LiveMarkup.Proofs.Expr.Swaps

/-!
# Texts in which items go by names

In a text an access `name[digits]` is replaced by a name.  Where it stands by itself (`Seam`), outside
of strings and not after a dot, and no character of a name follows, the tokens before and behind it
stay what they are (`Renamed.lexes`): the text can be read exactly if the one with the names can, and
the tokens are swapped as `Swaps` says.
-/

namespace LiveMarkup

open Text

variable {s s' : Scope} {cs cs' rest : List Char} {ts ts' us vs : List Token}

/-! ## Tokens without places -/

/-- Tokens of which some accesses to items are swapped for names, wherever they stand. -/
def SwapsTokens (s s' : Scope) (dot : Bool) (ts ts' : List Token) : Prop :=
  ∀ ls ls' : List Lexeme, ls.map Lexeme.token = ts → ls'.map Lexeme.token = ts' →
    Swaps s s' dot ls ls'

theorem SwapsTokens.keep {dot : Bool} {t : Token} (hx : ∀ x, t = .ident x → s.find? x = s'.find? x)
    (h : SwapsTokens s s' (t = .symbol .dot) ts ts') : SwapsTokens s s' dot (t :: ts) (t :: ts') := by
  intro ls ls' hls hls'
  obtain ⟨l, ls, rfl, rfl, rfl⟩ := List.map_eq_cons_iff.mp hls
  obtain ⟨l', ls', rfl, hl', rfl⟩ := List.map_eq_cons_iff.mp hls'
  exact .keep hl'.symm hx (h _ _ rfl rfl)

/-- Tokens in front are kept; what follows them is swapped if no dot stands before it. -/
theorem SwapsTokens.append (hx : ∀ x, .ident x ∈ us → s.find? x = s'.find? x)
    (h : SwapsTokens s s' false ts ts') : ∀ {dot : Bool}, (us = [] → dot = false) →
    us.getLast? ≠ some (.symbol .dot) → SwapsTokens s s' dot (us ++ ts) (us ++ ts') := by
  induction us with
  | nil =>
    intro dot hdot _
    rw [hdot rfl]
    exact h
  | cons t us ih =>
    intro dot _ hlast
    refine .keep (fun x ht => hx x (by simp [ht])) (ih (fun x hmem => hx x (by simp [hmem])) ?_ ?_)
    · rintro rfl
      simpa using hlast
    · rcases us with _ | ⟨u, us⟩
      · exact nofun
      · rwa [List.getLast?_cons_cons] at hlast

theorem SwapsTokens.refl (hx : ∀ x, .ident x ∈ ts → s.find? x = s'.find? x) :
    ∀ {dot : Bool}, SwapsTokens s s' dot ts ts := by
  induction ts with
  | nil =>
    intro dot ls ls' hls hls'
    rw [List.map_eq_nil_iff.mp hls, List.map_eq_nil_iff.mp hls']
    exact .nil
  | cons t ts ih =>
    exact .keep (fun x ht => hx x (by simp [ht])) (ih fun x hmem => hx x (by simp [hmem]))

/-! ## Accesses and their names -/

/-- An access to an item of an array: a name that is no reserved word, and digits. -/
structure IsAccess (name digits : List Char) : Prop where
  word : name ≠ []
  start : ∀ c ∈ name.head?, isNameStart c = true
  rest : ∀ c ∈ name, isNameRest c = true
  unreserved : Reserved.ofSpelling? (String.ofList name) = none
  digits_ne : digits ≠ []
  digits : ∀ c ∈ digits, c.isDigit = true

/-- How an access is spelled. -/
def access (name digits : List Char) : List Char :=
  name ++ '[' :: digits ++ [']']

/-- The tokens of an access. -/
def accessTokens (name digits : List Char) : List Token :=
  [.ident (String.ofList name), .symbol .openBracket, .number (String.ofList digits),
    .symbol .closeBracket]

/-- An access is swapped for the name of what it reads. -/
theorem SwapsTokens.item {name digits : List Char} {temp : String} {target value : Value}
    (htarget : s.find? (String.ofList name) = some target) (hvalue : s'.find? temp = some value)
    (hitem : target.at? (.number ((Decimal.read? digits).getD 0)) = .ok value)
    (h : SwapsTokens s s' false ts ts') :
    SwapsTokens s s' false (accessTokens name digits ++ ts) (.ident temp :: ts') := by
  intro ls ls' hls hls'
  obtain ⟨t, ls, rfl, ht, hls⟩ := List.map_eq_cons_iff.mp hls
  obtain ⟨o, ls, rfl, ho, hls⟩ := List.map_eq_cons_iff.mp hls
  obtain ⟨n, ls, rfl, hn, hls⟩ := List.map_eq_cons_iff.mp hls
  obtain ⟨c, ls, rfl, hc, hls⟩ := List.map_eq_cons_iff.mp hls
  obtain ⟨t', ls', rfl, ht', hls'⟩ := List.map_eq_cons_iff.mp hls'
  exact .item ht ho hn hc ht' htarget hvalue (by rwa [String.toList_ofList]) (h _ _ hls hls')

/-- A word in front of what cannot continue it. -/
theorem scanToken_word {w : List Char} (hne : w ≠ []) (hstart : ∀ c ∈ w.head?, isNameStart c = true)
    (hrest : ∀ c ∈ w, isIdentRest c = true) (hunreserved : Reserved.ofSpelling? (String.ofList w) = none)
    (hend : ∀ c ∈ cs.head?, isIdentRest c = false) :
    scanToken (w ++ cs) = some (.ident (String.ofList w), cs) := by
  obtain ⟨c, r, rfl⟩ := List.exists_cons_of_ne_nil hne
  rw [List.forall_mem_cons] at hrest
  have hident : isIdentStart c = true := by simp [isIdentStart, hstart c rfl]
  obtain ⟨htake, hdrop⟩ := takeWhile_append_cons hrest.2 hend
  rw [List.cons_append, scanToken, if_pos hident, htake, hdrop, Token.ofWord, hunreserved]

theorem scanToken_openBracket (cs : List Char) :
    scanToken ('[' :: cs) = some (.symbol .openBracket, cs) := by
  rfl

theorem scanToken_closeBracket (cs : List Char) :
    scanToken (']' :: cs) = some (.symbol .closeBracket, cs) := by
  rfl

theorem scanToken_digits {ds : List Char} (hne : ds ≠ []) (hds : ∀ c ∈ ds, c.isDigit = true)
    (cs : List Char) :
    scanToken (ds ++ ']' :: cs) = some (.number (String.ofList ds), ']' :: cs) := by
  obtain ⟨htake, hdrop⟩ := takeWhile_append_cons hds
    (show ∀ c ∈ (']' :: cs).head?, c.isDigit = false by simp)
  have hnumber : scanNumber (ds ++ ']' :: cs) = some (ds, ']' :: cs) := by
    simp [scanNumber, htake, hdrop, scanFraction, scanExponent, hne]
  obtain ⟨d, r, rfl⟩ := List.exists_cons_of_ne_nil hne
  have hd : d.isDigit = true := hds d (by simp)
  have hident : isIdentStart d = false := by
    rw [isIdentStart, Bool.or_eq_false_iff, decide_eq_false_iff_not]
    refine ⟨Bool.eq_false_iff.mpr fun hstart => ?_, ?_⟩
    · rw [not_isDigit_of_isNameStart hstart] at hd
      cases hd
    · rintro rfl
      cases hd
  have hquote : isQuote d = false := (isNumberChar_of_isDigit hd).1
  rw [List.cons_append] at hnumber ⊢
  rw [scanToken, hident, if_neg Bool.false_ne_true,
    if_neg (by simpa [isQuote] using hquote), hnumber]

theorem lexes_iff_of_scanToken {t : Token} (hs : scanToken cs = some (t, rest)) :
    Lexes cs ts ↔ ∃ us, ts = t :: us ∧ Lexes rest us := by
  constructor
  · intro h
    rcases cs with _ | ⟨c, cs⟩
    · cases hs
    rcases h.of_cons with ⟨hc, -⟩ | ⟨t', us, rest', rfl, hs', hrest⟩
    · rw [not_isTokenBlank_of_scanToken hs] at hc
      cases hc
    · rw [hs] at hs'
      cases hs'
      exact ⟨us, rfl, hrest⟩
  · rintro ⟨us, rfl, h⟩
    exact @Lexes.cons [] _ _ _ _ nofun hs h

section

variable {name digits : List Char} (h : IsAccess name digits)
include h

theorem IsAccess.scanToken_name (rest : List Char) :
    scanToken (name ++ '[' :: (digits ++ ']' :: rest)) =
      some (.ident (String.ofList name), '[' :: (digits ++ ']' :: rest)) :=
  scanToken_word h.word h.start (fun c hc => by simp [isIdentRest, h.rest c hc]) h.unreserved
    fun c hc => by rw [← Option.some.inj hc]; decide

theorem lexes_access_append_iff :
    Lexes (access name digits ++ rest) ts ↔
      ∃ us, ts = accessTokens name digits ++ us ∧ Lexes rest us := by
  have hname := h.scanToken_name rest
  have hspelled : access name digits ++ rest = name ++ '[' :: (digits ++ ']' :: rest) := by
    simp [access]
  rw [hspelled, lexes_iff_of_scanToken hname]
  simp only [lexes_iff_of_scanToken (scanToken_openBracket _),
    lexes_iff_of_scanToken (scanToken_digits h.digits_ne h.digits rest),
    lexes_iff_of_scanToken (scanToken_closeBracket rest)]
  constructor
  · rintro ⟨_, rfl, _, rfl, _, rfl, us, rfl, hus⟩
    exact ⟨us, rfl, hus⟩
  · rintro ⟨us, rfl, hus⟩
    exact ⟨_, rfl, _, rfl, _, rfl, us, rfl, hus⟩

theorem seam_access {b : List Char} (hb : attaches b.getLast? = false) :
    Seam b (access name digits ++ rest) := by
  refine ⟨hb, fun c hc => h.start c ?_⟩
  obtain ⟨d, r, rfl⟩ := List.exists_cons_of_ne_nil h.word
  exact hc

end

theorem itemName_toList (name : List Char) (n : Nat) :
    (itemName name n).toList = "__temp_".toList ++ (name ++ '_' :: Decimal.numeral n) := by
  unfold itemName
  rw [String.toList_ofList, List.append_assoc]

theorem isDigit_of_mem_numeral {n : Nat} {c : Char} (hc : c ∈ Decimal.numeral n) :
    c.isDigit = true :=
  Nat.isDigit_of_mem_toDigits (by decide) (by decide) hc

theorem isIdentRest_of_mem_itemName {name : List Char} (hname : ∀ c ∈ name, isNameRest c = true)
    {n : Nat} {c : Char} (hc : c ∈ (itemName name n).toList) : isIdentRest c = true := by
  rw [itemName_toList, List.mem_append, List.mem_append, List.mem_cons] at hc
  rcases hc with hc | hc | rfl | hc
  · exact List.all_eq_true.mp (by decide : "__temp_".toList.all isIdentRest = true) c hc
  · simp [isIdentRest, hname c hc]
  · decide
  · simp [isIdentRest, isNameRest, Char.isAlphanum, isDigit_of_mem_numeral hc]

theorem head?_itemName (name : List Char) (n : Nat) : (itemName name n).toList.head? = some '_' := by
  rw [itemName_toList]
  rfl

theorem unreserved_itemName (name : List Char) (n : Nat) :
    Reserved.ofSpelling? (itemName name n) = none := by
  refine List.find?_eq_none.mpr fun r _ hr => ?_
  have hhead := head?_itemName name n
  rw [← of_decide_eq_true hr] at hhead
  revert hhead
  cases r <;> decide

theorem lexes_itemName_append_iff {name : List Char} (hname : ∀ c ∈ name, isNameRest c = true)
    {n : Nat} (hend : ∀ c ∈ rest.head?, isIdentRest c = false) :
    Lexes ((itemName name n).toList ++ rest) ts ↔
      ∃ us, ts = .ident (itemName name n) :: us ∧ Lexes rest us := by
  have hhead := head?_itemName name n
  have hne : (itemName name n).toList ≠ [] := by
    intro hnil
    rw [hnil] at hhead
    cases hhead
  have hscan := scanToken_word hne (fun c hc => by rw [hhead] at hc; cases hc; decide)
    (fun c hc => isIdentRest_of_mem_itemName hname hc)
    (by rw [String.ofList_toList]; exact unreserved_itemName name n) hend
  rw [String.ofList_toList] at hscan
  exact lexes_iff_of_scanToken hscan

theorem seam_itemName {b name : List Char} {n : Nat} (hb : attaches b.getLast? = false) :
    Seam b ((itemName name n).toList ++ rest) := by
  refine ⟨hb, fun c hc => ?_⟩
  rw [itemName_toList] at hc
  cases hc
  decide

/-! ## Texts -/

/-- An access in a text is read as such and can go by a name: it does not stand within a string or
after a dot, and no character of a name follows. -/
structure ReadsAccess (before name rest : List Char) : Prop where
  outside : ¬ InString before
  noProperty : ∀ us, Lexes before us → us.getLast? ≠ some (.symbol .dot)
  unreserved : Reserved.ofSpelling? (String.ofList name) = none
  apart : ∀ c ∈ rest.head?, isIdentRest c = false

/-- A text and the same with accesses replaced by names.  What follows a place that cannot be read
does not matter. -/
inductive Renamed (s s' : Scope) : List Char → List Char → Prop where
  | text {cs : List Char} : Renamed s s' cs cs
  | item {b name digits rest out : List Char} {n : Nat} {target value : Value} :
    attaches b.getLast? = false → ReadsAccess b name rest → IsAccess name digits →
    s.find? (String.ofList name) = some target → s'.find? (itemName name n) = some value →
    target.at? (.number ((Decimal.read? digits).getD 0)) = .ok value → Renamed s s' rest out →
    Renamed s s' (b ++ (access name digits ++ rest)) (b ++ ((itemName name n).toList ++ out))
  | stuck {b y y' : List Char} : Seam b y → Seam b y' → ¬ InString b → (¬ ∃ us, Lexes b us) →
    Renamed s s' (b ++ y) (b ++ y')

theorem isIdentRest_of_isNameStart {c : Char} (h : isNameStart c = true) : isIdentRest c = true :=
  isIdentRest_of_isIdentStart (by simp [isIdentStart, h])

/-- A text that starts with no character of a name still does not with the names. -/
theorem Renamed.head (h : Renamed s s' cs cs') (hcs : ∀ c ∈ cs.head?, isIdentRest c = false) :
    ∀ c ∈ cs'.head?, isIdentRest c = false := by
  cases h with
  | text => exact hcs
  | @item b name digits rest out n target value _ _ haccess =>
    rcases b with _ | ⟨c, b⟩
    · obtain ⟨c, r, hr⟩ := List.exists_cons_of_ne_nil haccess.word
      have hstart := haccess.start c (by rw [hr]; rfl)
      have hc := hcs c (by simp [access, hr])
      rw [isIdentRest_of_isNameStart hstart] at hc
      cases hc
    · exact hcs
  | @stuck b y y' _ _ _ hb =>
    rcases b with _ | ⟨c, b⟩
    · exact absurd ⟨[], .nil nofun⟩ hb
    · exact hcs

/-- What can be read can be read with the names, and its tokens are swapped. -/
theorem Renamed.lexes (h : Renamed s s' cs cs') : ∀ {ts : List Token}, Lexes cs ts →
    (∀ x, .ident x ∈ ts → s.find? x = s'.find? x) →
    ∃ ts', Lexes cs' ts' ∧ SwapsTokens s s' false ts ts' := by
  induction h with
  | text => exact fun hts hx => ⟨_, hts, .refl hx⟩
  | @item _ _ _ _ _ n _ _ hb hreads haccess htarget hvalue hitem hrest ih =>
    intro ts hts hx
    obtain ⟨us, vs, rfl, hus, hvs⟩ :=
      (seam_access haccess hb).lexes_of_append hreads.outside hts
    obtain ⟨ws, rfl, hws⟩ := (lexes_access_append_iff haccess).mp hvs
    obtain ⟨ws', hws', hswaps⟩ := ih hws fun x hmem => hx x (by simp [hmem])
    have htemp := (lexes_itemName_append_iff (n := n) haccess.rest (hrest.head hreads.apart)).mpr
      ⟨ws', rfl, hws'⟩
    exact ⟨_, (seam_itemName hb).lexes_append hus htemp,
      (SwapsTokens.item htarget hvalue hitem hswaps).append (fun x hmem => hx x (by simp [hmem]))
        (fun _ => rfl) (hreads.noProperty us hus)⟩
  | stuck hy _ hopen hb =>
    intro ts hts
    obtain ⟨us, _, _, hus, _⟩ := hy.lexes_of_append hopen hts
    exact absurd ⟨us, hus⟩ hb

/-- What cannot be read cannot be read with the names either. -/
theorem Renamed.exists_lexes (h : Renamed s s' cs cs') : ∀ {ts' : List Token}, Lexes cs' ts' →
    ∃ ts, Lexes cs ts := by
  induction h with
  | text => exact fun hts => ⟨_, hts⟩
  | item hb hreads haccess _ _ _ hrest ih =>
    intro ts' hts'
    obtain ⟨us, vs, rfl, hus, hvs⟩ := (seam_itemName hb).lexes_of_append hreads.outside hts'
    obtain ⟨ws', rfl, hws'⟩ :=
      (lexes_itemName_append_iff haccess.rest (hrest.head hreads.apart)).mp hvs
    obtain ⟨ws, hws⟩ := ih hws'
    exact ⟨_, (seam_access haccess hb).lexes_append hus
      ((lexes_access_append_iff haccess).mpr ⟨ws, rfl, hws⟩)⟩
  | stuck _ hy' hopen hb =>
    intro ts' hts'
    obtain ⟨us, _, _, hus, _⟩ := hy'.lexes_of_append hopen hts'
    exact absurd ⟨us, hus⟩ hb

/-! ## Expressions -/

theorem kind_of_lexFrom {err : ExprError} : ∀ {fuel pos : Nat} {cs : List Char},
    lexFrom fuel pos cs = .error err → err.kind = .unexpectedCharacter
  | fuel + 1, pos, cs, h => by
    simp only [lexFrom] at h
    split at h
    · cases h
    · split at h
      · cases h
        rfl
      · rename_i rest _
        rcases hrest : lexFrom fuel _ rest with err' | ls <;> rw [hrest] at h
        · cases h
          exact kind_of_lexFrom hrest
        · cases h

theorem kind_of_tokenize {err : ExprError} (h : tokenize cs = .error err) :
    err.kind = .unexpectedCharacter :=
  kind_of_lexFrom h

/-- The expressions of the two texts have the same value, or both texts are wrong in the same way. -/
theorem Renamed.alike_parseExpr (h : Renamed s s' cs cs')
    (hx : ∀ ts, Lexes cs ts → ∀ x, .ident x ∈ ts → s.find? x = s'.find? x) :
    Alike (fun e e' => e.eval s = e'.eval s') (parseExpr cs) (parseExpr cs') := by
  rcases hls : tokenize cs with err | ls
  · rcases hls' : tokenize cs' with err' | ls'
    · have hkind := (kind_of_tokenize hls).trans (kind_of_tokenize hls').symm
      rw [parseExpr, parseExpr, hls, hls']
      exact .error hkind
    · obtain ⟨ts, hts⟩ := h.exists_lexes (lexes_iff_tokenize.mpr ⟨ls', hls', rfl⟩)
      obtain ⟨ls, hls'', -⟩ := lexes_iff_tokenize.mp hts
      rw [hls] at hls''
      cases hls''
  · have hlexes := lexes_iff_tokenize.mpr ⟨ls, hls, rfl⟩
    obtain ⟨ts', hts', hswaps⟩ := h.lexes hlexes (hx _ hlexes)
    obtain ⟨ls', hls', rfl⟩ := lexes_iff_tokenize.mp hts'
    rw [parseExpr, parseExpr, hls, hls']
    exact alike_parseTokens (hswaps ls ls' rfl rfl)

end LiveMarkup
