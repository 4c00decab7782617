import LiveMarkup.Handler.Call
import LiveMarkup.Proofs.Expr.Renamed
import LiveMarkup.Proofs.Text.Trim

/-!
# Arguments of a call

An argument is a text whose strings are closed and whose brackets are balanced, with no comma
outside of both (`IsArgument`).  The scan for commas passes over such a text as a whole
(`cutAtCommas_append`), and so a call that is written with arguments is cut into just these again,
whatever blanks stand around them (`Call.parse?_of_arguments`).
-/

namespace LiveMarkup

open Text

variable {a b p w cs rest name before gap after semicolon trailing : List Char} {q : Option Char}
  {c : Char} {depth : Nat} {args pieces : List (List Char)}

/-! ## Arguments -/

/-- The part of a text that is outside its strings; none if a string is not closed.  In a string a
backslash takes the next character along. -/
def outsideStrings : (quote : Option Char) → List Char → Option (List Char)
  | none, [] => some []
  | some _, [] => none
  | some q, '\\' :: _ :: cs => outsideStrings (some q) cs
  | some q, c :: cs => outsideStrings (if c = q then none else some q) cs
  | none, c :: cs =>
    if isQuote c then outsideStrings (some c) cs else (outsideStrings none cs).map (c :: ·)

/-- A text without strings, inside a number of open brackets: no more are closed than are open, in
the end all are closed, and at a comma one is open.  The kinds of the brackets that open and close
need not be the same. -/
structure Enclosed (depth : Nat) (w : List Char) : Prop where
  early : ∀ p, p <+: w → p.countP isClosing ≤ depth + p.countP isOpening
  closed : w.countP isClosing = depth + w.countP isOpening
  comma : ∀ p, p ++ [','] <+: w → p.countP isClosing < depth + p.countP isOpening

instance (depth : Nat) (w : List Char) : Decidable (Enclosed depth w) :=
  decidable_of_iff
    ((∀ p ∈ w.inits, p.countP isClosing ≤ depth + p.countP isOpening) ∧
      w.countP isClosing = depth + w.countP isOpening ∧
      ∀ p ∈ w.inits, p ++ [','] <+: w → p.countP isClosing < depth + p.countP isOpening)
    ⟨fun ⟨h1, h2, h3⟩ => ⟨fun p hp => h1 p ((List.mem_inits p w).mpr hp), h2, fun p hp =>
        h3 p ((List.mem_inits p w).mpr ((List.prefix_append p [',']).trans hp)) hp⟩,
      fun h => ⟨fun p hp => h.early p ((List.mem_inits p w).mp hp), h.closed, fun p _ =>
        h.comma p⟩⟩

/-- The text of an argument. -/
structure IsArgument (a : List Char) : Prop where
  trimmed : trim a = a
  nonempty : a ≠ []
  /-- Strings are closed; outside of them brackets are balanced and no comma stands by itself. -/
  enclosed : ∃ w, outsideStrings none a = some w ∧ Enclosed 0 w

/-- A text with nothing but blanks around another one. -/
def Padded (a p : List Char) : Prop :=
  ∃ l r, p = l ++ (a ++ r) ∧ (∀ c ∈ l, isBlank c = true) ∧ ∀ c ∈ r, isBlank c = true

/-! ## The scan for commas -/

theorem cutAtCommas_ne_nil (q : Option Char) (depth : Nat) (cs : List Char) :
    cutAtCommas q depth cs ≠ [] := by
  have hprepend : ∀ (start : List Char) (ps : List (List Char)), prependToFirst start ps ≠ [] :=
    fun start ps => by cases ps <;> exact List.cons_ne_nil _ _
  fun_induction cutAtCommas q depth cs <;> simp [hprepend]

theorem prependToFirst_append (a b : List Char) (ps : List (List Char)) :
    prependToFirst a (prependToFirst b ps) = prependToFirst (a ++ b) ps := by
  cases ps <;> simp [prependToFirst]

theorem prependToFirst_nil (hps : pieces ≠ []) : prependToFirst [] pieces = pieces := by
  cases pieces with
  | nil => exact absurd rfl hps
  | cons p ps => rfl

theorem Enclosed.tail (h : Enclosed depth (c :: w)) :
    Enclosed (if isOpening c then depth + 1 else if isClosing c then depth - 1 else depth) w := by
  obtain ⟨hearly, hclosed, hcomma⟩ := h
  -- a bracket either opens or closes, and one that closes finds one open
  have hone : isOpening c = true → isClosing c = false := by
    simp only [isOpening, Bool.or_eq_true, decide_eq_true_eq]
    rintro ((rfl | rfl) | rfl) <;> decide
  have hopen : isClosing c = true → 1 ≤ depth := fun hc => by
    have hno : isOpening c = false := by
      rcases ho : isOpening c with _ | _
      · rfl
      · rw [hone ho] at hc
        cases hc
    simpa [hc, hno] using hearly [c] (by simp)
  have hcons : ∀ p : List Char, p <+: w → c :: p <+: c :: w := fun p hp =>
    List.cons_prefix_cons.mpr ⟨rfl, hp⟩
  refine ⟨fun p hp => ?_, ?_, fun p hp => ?_⟩
  · have := hearly (c :: p) (hcons p hp)
    rw [List.countP_cons, List.countP_cons] at this
    split_ifs at this ⊢ <;> simp_all <;> omega
  · rw [List.countP_cons, List.countP_cons] at hclosed
    split_ifs at hclosed ⊢ <;> simp_all <;> omega
  · have := hcomma (c :: p) (hcons _ hp)
    rw [List.countP_cons, List.countP_cons] at this
    split_ifs at this ⊢ <;> simp_all <;> omega

/-- The scan for commas passes over a text whose strings are closed and whose brackets are
balanced. -/
theorem cutAtCommas_append (hq : ∀ c ∈ q, isQuote c = true) (ha : outsideStrings q a = some w)
    (hw : Enclosed depth w) (rest : List Char) :
    cutAtCommas q depth (a ++ rest) = prependToFirst a (cutAtCommas none 0 rest) := by
  fun_induction outsideStrings q a generalizing depth w with
  | case1 =>
    obtain rfl := Option.some.inj ha
    obtain rfl : depth = 0 := by simpa using hw.closed.symm
    rw [List.nil_append, prependToFirst_nil (cutAtCommas_ne_nil none 0 rest)]
  | case2 => cases ha
  | case3 q c cs ih =>
    rw [List.cons_append, List.cons_append, cutAtCommas, ih hq ha hw, prependToFirst_append]
    rfl
  | case4 q c cs hlast ih =>
    have hquote := hq q rfl
    -- a string that ends in a lone backslash is not closed
    have hnext : ∀ d ds, c = '\\' → cs ++ rest = d :: ds → False := by
      rintro d ds rfl -
      rcases cs with _ | ⟨d, cs⟩
      · rw [if_neg (ne_backslash_of_isQuote hquote).symm] at ha
        cases ha
      · exact hlast d cs rfl rfl
    rw [List.cons_append, cutAtCommas.eq_3 _ _ _ _ hnext, ih ?_ ha hw, prependToFirst_append]
    · rfl
    · split_ifs
      · simp
      · exact hq
  | case5 c cs hc ih =>
    have hcomma : c ≠ ',' := by
      rintro rfl
      revert hc
      decide
    rw [List.cons_append, cutAtCommas, if_neg (by simp [hcomma]),
      if_pos (by simpa [isQuote] using hc), ih (by simpa using hc) ha hw, prependToFirst_append]
    rfl
  | case6 c cs hc ih =>
    obtain ⟨w, hcs, rfl⟩ := Option.map_eq_some_iff.mp ha
    have hcomma : ¬ (c = ',' ∧ depth = 0) := by
      rintro ⟨rfl, rfl⟩
      have := hw.comma [] (by simp)
      simp at this
    rw [List.cons_append, cutAtCommas, if_neg (by simpa using hcomma),
      if_neg (by simpa [isQuote] using hc)]
    dsimp only
    rw [ih (by simp) hcs hw.tail, prependToFirst_append]
    rfl

/-- Blanks are no quotes, brackets or commas. -/
theorem plain_of_isBlank (hc : isBlank c = true) :
    isQuote c = false ∧ isOpening c = false ∧ isClosing c = false ∧ c ≠ ',' := by
  have marks : ∀ m ∈ ['"', '\'', '(', '[', '\x7b', ')', ']', '\x7d', ','],
      isBlank m = false := by
    simp [isBlank, blankRanges]
  have hnot : c ∉ ['"', '\'', '(', '[', '\x7b', ')', ']', '\x7d', ','] := fun hmem => by
    rw [marks c hmem] at hc
    cases hc
  simp only [List.mem_cons, List.not_mem_nil, or_false, not_or] at hnot
  simp [isQuote, isOpening, isClosing, hnot]

theorem cutAtCommas_blanks (ha : ∀ c ∈ a, isBlank c = true) (rest : List Char) :
    cutAtCommas none 0 (a ++ rest) = prependToFirst a (cutAtCommas none 0 rest) := by
  induction a with
  | nil => rw [List.nil_append, prependToFirst_nil (cutAtCommas_ne_nil none 0 rest)]
  | cons c a ih =>
    obtain ⟨hquote, hopening, hclosing, hcomma⟩ := plain_of_isBlank (ha c List.mem_cons_self)
    rw [List.cons_append, cutAtCommas, if_neg (by simp [hcomma]),
      if_neg (by simpa [isQuote] using hquote)]
    simp only [hopening, hclosing, Bool.false_eq_true, ↓reduceIte]
    rw [ih fun d hd => ha d (List.mem_cons_of_mem c hd), prependToFirst_append]
    rfl

theorem IsArgument.cut (ha : IsArgument a) (hp : Padded a p) (rest : List Char) :
    cutAtCommas none 0 (p ++ rest) = prependToFirst p (cutAtCommas none 0 rest) := by
  obtain ⟨l, r, rfl, hl, hr⟩ := hp
  obtain ⟨w, hw, henclosed⟩ := ha.enclosed
  rw [List.append_assoc, List.append_assoc, cutAtCommas_blanks hl,
    cutAtCommas_append (by simp) hw henclosed, cutAtCommas_blanks hr, prependToFirst_append,
    prependToFirst_append, List.append_assoc]

/-- Texts between commas that are passed over are cut apart again. -/
theorem cutAtCommas_intercalate : ∀ {pieces : List (List Char)}, pieces ≠ [] →
    (∀ p ∈ pieces, ∀ rest, cutAtCommas none 0 (p ++ rest) =
      prependToFirst p (cutAtCommas none 0 rest)) →
    cutAtCommas none 0 ([','].intercalate pieces) = pieces
  | [], h, _ => absurd rfl h
  | [p], _, h => by
    have hp := h p List.mem_cons_self []
    rw [List.append_nil] at hp
    rw [List.intercalate_singleton, hp]
    simp [cutAtCommas, prependToFirst]
  | p :: p' :: pieces, _, h => by
    have ih := cutAtCommas_intercalate (List.cons_ne_nil p' pieces) fun x hx =>
      h x (List.mem_cons_of_mem p hx)
    rw [List.intercalate_cons_cons, List.append_assoc, h p List.mem_cons_self,
      List.singleton_append, cutAtCommas, if_pos (by simp), ih]
    simp [prependToFirst]

theorem IsArgument.trim_padded (ha : IsArgument a) (hp : Padded a p) : trim p = a := by
  obtain ⟨l, r, rfl, hl, hr⟩ := hp
  rw [trim_surrounded hl hr, ha.trimmed]

/-- Arguments that are written with blanks around them and commas between them are found. -/
theorem splitArguments_intercalate (hargs : ∀ a ∈ args, IsArgument a)
    (hpieces : List.Forall₂ Padded args pieces) :
    splitArguments ([','].intercalate pieces) = args.map String.ofList := by
  have hcut : ∀ p ∈ pieces, ∀ rest, cutAtCommas none 0 (p ++ rest) =
      prependToFirst p (cutAtCommas none 0 rest) := by
    induction hpieces with
    | nil => simp
    | cons hp _ ih =>
      rw [List.forall_mem_cons] at hargs ⊢
      exact ⟨hargs.1.cut hp, ih hargs.2⟩
  have htrim : pieces.map trim = args := by
    clear hcut
    induction hpieces with
    | nil => rfl
    | cons hp _ ih =>
      rw [List.forall_mem_cons] at hargs
      rw [List.map_cons, hargs.1.trim_padded hp, ih hargs.2]
  rcases args with _ | ⟨a, args⟩
  · cases hpieces
    rfl
  · have hne : pieces ≠ [] := by
      rintro rfl
      cases hpieces
    unfold splitArguments
    rw [cutAtCommas_intercalate hne hcut, htrim]
    split
    · rename_i heq
      obtain ⟨rfl, -⟩ := List.cons.inj heq
      exact absurd rfl (hargs [] List.mem_cons_self).nonempty
    · rfl

/-! ## The call -/

/-- The end of a call is the last parenthesis that closes. -/
theorem beforeCallEnd?_eq (inside : List Char) (hafter : ∀ c ∈ after, isBlank c = true)
    (hsemicolon : semicolon = [] ∨ semicolon = [';'])
    (htrailing : ∀ c ∈ trailing, isBlank c = true) :
    beforeCallEnd? (inside ++ ')' :: (after ++ (semicolon ++ trailing))) = some inside := by
  have hend : (')' :: inside.reverse).dropWhile isBlank = ')' :: inside.reverse :=
    List.dropWhile_cons_of_neg (by decide +kernel)
  have hback : ∀ bs : List Char, (∀ c ∈ bs, isBlank c = true) →
      (bs.reverse ++ ')' :: inside.reverse).dropWhile isBlank = ')' :: inside.reverse := by
    intro bs hbs
    rw [List.dropWhile_append_of_pos fun c hc => hbs c (List.mem_reverse.mp hc), hend]
  rcases hsemicolon with rfl | rfl
  · have hrev : (inside ++ ')' :: (after ++ ([] ++ trailing))).reverse =
        (after ++ trailing).reverse ++ ')' :: inside.reverse := by simp
    have hblanks : ∀ c ∈ after ++ trailing, isBlank c = true :=
      List.forall_mem_append.mpr ⟨hafter, htrailing⟩
    rw [beforeCallEnd?, hrev, hback _ hblanks]
    simp
  · have hrev : (inside ++ ')' :: (after ++ ([';'] ++ trailing))).reverse =
        trailing.reverse ++ ';' :: (after.reverse ++ ')' :: inside.reverse) := by simp
    have hsemi : isBlank ';' = false := by decide +kernel
    rw [beforeCallEnd?, hrev,
      List.dropWhile_append_of_pos fun c hc => htrailing c (List.mem_reverse.mp hc),
      List.dropWhile_cons_of_neg (by simp [hsemi])]
    simp only [hback _ hafter, List.reverse_reverse]

/-- A call of a name with arguments is read as the name and just these arguments.  Blanks may stand
around the call, the name and each argument, and a semicolon may follow. -/
theorem Call.parse?_of_arguments (hne : name ≠ []) (hname : IdentWord name)
    (hargs : ∀ a ∈ args, IsArgument a) (hpieces : List.Forall₂ Padded args pieces)
    (hbefore : ∀ c ∈ before, isBlank c = true) (hgap : ∀ c ∈ gap, isBlank c = true)
    (hafter : ∀ c ∈ after, isBlank c = true) (hsemicolon : semicolon = [] ∨ semicolon = [';'])
    (htrailing : ∀ c ∈ trailing, isBlank c = true) :
    Call.parse? (before ++ (name ++ (gap ++ '(' :: ([','].intercalate pieces ++
      ')' :: (after ++ (semicolon ++ trailing)))))) =
        some ⟨String.ofList name, args.map String.ofList⟩ := by
  have hend := beforeCallEnd?_eq ([','].intercalate pieces) hafter hsemicolon htrailing
  generalize [','].intercalate pieces ++ ')' :: (after ++ (semicolon ++ trailing)) = r at hend ⊢
  obtain ⟨c, w, rfl⟩ := List.exists_cons_of_ne_nil hne
  have hstart := hname.1 c rfl
  have hnext : ∀ d ∈ (gap ++ '(' :: r).head?, isIdentRest d = false := by
    intro d hd
    rcases gap with _ | ⟨g, gap⟩
    · obtain rfl : '(' = d := by simpa using hd
      decide
    · obtain rfl : g = d := by simpa using hd
      by_contra hrest
      have hblank := hgap g List.mem_cons_self
      rw [isBlank_of_isIdentRest (by simpa using hrest)] at hblank
      cases hblank
  obtain ⟨htake, hdrop⟩ := takeWhile_append_cons hname.2 hnext
  have hopen : (gap ++ '(' :: r).dropWhile isBlank = '(' :: r := by
    rw [List.dropWhile_append_of_pos hgap, List.dropWhile_cons_of_neg (by decide +kernel)]
  have hfirst : (before ++ (c :: w ++ (gap ++ '(' :: r))).dropWhile isBlank =
      c :: w ++ (gap ++ '(' :: r) := by
    rw [List.dropWhile_append_of_pos hbefore, List.cons_append, List.dropWhile_cons_of_neg]
    simp [isBlank_of_isIdentRest (isIdentRest_of_isIdentStart hstart)]
  rw [Call.parse?, hfirst, hdrop, hopen, htake]
  simp only [List.cons_append, List.head?_cons, Option.any_some, hstart, ↓reduceIte]
  rw [hend, Option.map_some, splitArguments_intercalate hargs hpieces]

theorem Call.parse?_of_arguments_move :
    Call.parse? " move (items[0], 'a, b' ,f(x, \")\")) ; ".toList =
      some ⟨"move", ["items[0]", "'a, b'", "f(x, \")\")"]⟩ := by
  have hitems : IsArgument "items[0]".toList :=
    ⟨by simp [trim, isBlank, blankRanges], by decide, _, rfl, by decide⟩
  have hstring : IsArgument "'a, b'".toList :=
    ⟨by simp [trim, isBlank, blankRanges], by decide, _, rfl, by decide⟩
  have hcall : IsArgument "f(x, \")\")".toList :=
    ⟨by simp [trim, isBlank, blankRanges], by decide, _, rfl, by decide⟩
  have hblank : ∀ c ∈ [' '], isBlank c = true := by simp [isBlank, blankRanges]
  have hname : IdentWord "move".toList := by
    simp [IdentWord, isIdentStart, isIdentRest, isNameStart, isNameRest]
  have hpieces : List.Forall₂ Padded ["items[0]".toList, "'a, b'".toList, "f(x, \")\")".toList]
      ["items[0]".toList, " 'a, b' ".toList, "f(x, \")\")".toList] :=
    .cons ⟨[], [], rfl, by simp, by simp⟩ (.cons ⟨[' '], [' '], rfl, hblank, hblank⟩
      (.cons ⟨[], [], rfl, by simp, by simp⟩ .nil))
  exact Call.parse?_of_arguments (by decide) hname
    (List.forall_mem_cons.mpr ⟨hitems, List.forall_mem_cons.mpr
      ⟨hstring, List.forall_mem_singleton.mpr hcall⟩⟩)
    hpieces hblank hblank hblank (.inr rfl) hblank

end LiveMarkup
