import Mathlib.Data.List.Infix
import Mathlib.Data.List.SplitBy
import LiveMarkup.Expr.Variables

/-!
# Words and strings of an expression text

The names in an expression text are found without reading it: its strings are blanked (`mask`), and
of the words that are left those are taken that can be names.  Word characters with none around
them are such a word (`mem_wordRuns`).

A text is blanked as it was written, but read in one line.  Strings are the same in both forms,
unless a backslash stands right before the end of a line (`mask_map_lineBlank`).
-/

namespace LiveMarkup

open Text

/-! ## Words -/

theorem mem_distinct {α : Type} [DecidableEq α] {xs : List α} {x : α} :
    x ∈ distinct xs ↔ x ∈ xs := by
  suffices h : ∀ seen : List α, x ∈ xs.foldl (fun seen x => if x ∈ seen then seen else seen ++ [x])
      seen ↔ x ∈ seen ∨ x ∈ xs by simpa [distinct] using h []
  induction xs with
  | nil => simp
  | cons y xs ih =>
    intro seen
    rw [List.foldl_cons, ih]
    split_ifs with hy
    · simp only [List.mem_cons]
      constructor
      · rintro (h | h)
        · exact .inl h
        · exact .inr (.inr h)
      · rintro (h | rfl | h)
        · exact .inl h
        · exact .inl hy
        · exact .inr h
    · simp only [List.mem_append, List.mem_cons, List.not_mem_nil, or_false, or_assoc]

/-- No word character stands at the start of a text. -/
def WordFreeStart (cs : List Char) : Prop :=
  ∀ c ∈ cs.head?, isWord c = false

/-- No word character stands at the end of a text. -/
def WordFreeEnd (cs : List Char) : Prop :=
  ∀ c ∈ cs.getLast?, isWord c = false

/-- Word characters with none around them are a word. -/
theorem mem_wordRuns {a w b : List Char} (hw : w ≠ []) (hword : ∀ c ∈ w, isWord c = true)
    (ha : WordFreeEnd a) (hb : WordFreeStart b) : w ∈ wordRuns (a ++ w ++ b) := by
  have hsame : w.IsChain fun x y => (isWord x == isWord y) = true :=
    (List.pairwise_of_forall_mem_list fun x hx y hy => by rw [hword x hx, hword y hy]; rfl).isChain
  have hcut : (a ++ w ++ b).splitBy (fun x y => isWord x == isWord y) =
      a.splitBy (fun x y => isWord x == isWord y) ++ [w] ++
        b.splitBy fun x y => isWord x == isWord y := by
    rw [List.append_assoc, List.splitBy_append, List.splitBy_append, List.splitBy_of_isChain hw hsame,
      List.append_assoc]
    · intro x hx y hy
      rw [hword x (List.mem_of_mem_getLast? hx), hb y hy]
      rfl
    · intro x hx y hy
      rw [List.head?_append_of_ne_nil _ hw] at hy
      rw [ha x hx, hword y (List.mem_of_mem_head? hy)]
      rfl
  rw [wordRuns, hcut]
  refine List.mem_filter.mpr ⟨by simp, ?_⟩
  rcases w with _ | ⟨c, w⟩
  · exact absurd rfl hw
  · simpa using hword c (by simp)

/-! ## Strings -/

/-- The inside of a string with its closing quote. -/
inductive Quoted (q : Char) : List Char → Prop where
  | close : Quoted q [q]
  | escape {c : Char} {cs : List Char} : c ≠ '\n' → Quoted q cs → Quoted q ('\\' :: c :: cs)
  | char {c : Char} {cs : List Char} : c ≠ q → c ≠ '\\' → Quoted q cs → Quoted q (c :: cs)

theorem scanQuoted_of_quoted {q : Char} (hq : q ≠ '\\') {a : List Char} (h : Quoted q a)
    (b : List Char) : scanQuoted q (a ++ b) = some (a, b) := by
  induction h with
  | close => rw [List.singleton_append, scanQuoted.eq_3 _ _ _ fun _ _ h _ => hq h, if_pos rfl]
  | @escape c a hc _ ih => simp [scanQuoted, hc, ih]
  | @char c a hc hb _ ih => rw [List.cons_append, scanQuoted.eq_3 _ _ _ fun _ _ h _ => hb h,
      if_neg hc, if_neg hb, ih]; rfl

theorem quoted_of_scanQuoted {q : Char} {cs a b : List Char} (h : scanQuoted q cs = some (a, b)) :
    cs = a ++ b ∧ Quoted q a := by
  induction cs using scanQuoted.induct q generalizing a b with
  | case1 => simp [scanQuoted] at h
  | case2 cs => simp [scanQuoted] at h
  | case3 c cs hc ih =>
    simp only [scanQuoted, hc, ↓reduceIte, Option.map_eq_some_iff] at h
    obtain ⟨⟨a', b'⟩, h', he⟩ := h
    cases he
    obtain ⟨rfl, hquoted⟩ := ih h'
    exact ⟨rfl, .escape hc hquoted⟩
  | case4 cs hne =>
    rw [scanQuoted.eq_3 _ _ _ hne, if_pos rfl] at h
    cases h
    exact ⟨rfl, .close⟩
  | case5 cs hne hb => rw [scanQuoted.eq_3 _ _ _ hne, if_neg hb, if_pos rfl] at h; cases h
  | case6 c cs hne hc hb ih =>
    rw [scanQuoted.eq_3 _ _ _ hne, if_neg hc, if_neg hb] at h
    obtain ⟨⟨a', b'⟩, h', he⟩ := Option.map_eq_some_iff.mp h
    cases he
    obtain ⟨rfl, hquoted⟩ := ih h'
    exact ⟨rfl, .char hc hb hquoted⟩

theorem scanQuoted_eq_some_iff {q : Char} (hq : q ≠ '\\') {cs a b : List Char} :
    scanQuoted q cs = some (a, b) ↔ cs = a ++ b ∧ Quoted q a :=
  ⟨quoted_of_scanQuoted, by rintro ⟨rfl, h⟩; exact scanQuoted_of_quoted hq h b⟩

/-- Whether a character opens a string in an expression. -/
def isQuote (c : Char) : Bool :=
  c = '"' || c = '\''

theorem ne_backslash_of_isQuote {c : Char} (h : isQuote c = true) : c ≠ '\\' := by
  rintro rfl
  cases h

/-! ## Blanked strings -/

/-- A text with its strings blanked. -/
def mask (cs : List Char) : List Char :=
  blankStrings cs.length cs

theorem blankStrings_eq {m n : Nat} {cs : List Char} (hm : cs.length ≤ m) (hn : cs.length ≤ n) :
    blankStrings m cs = blankStrings n cs := by
  induction m generalizing n cs with
  | zero =>
    obtain rfl := List.eq_nil_of_length_eq_zero (Nat.le_zero.mp hm)
    cases n <;> rfl
  | succ m ih =>
    rcases cs with _ | ⟨c, cs⟩
    · cases n <;> rfl
    · rcases n with _ | n
      · simp at hn
      · rw [List.length_cons, Nat.succ_le_succ_iff] at hm hn
        simp only [blankStrings]
        split
        · split
          · rename_i a rest hs
            have hlen := congrArg List.length (quoted_of_scanQuoted hs).1
            rw [List.length_append] at hlen
            rw [ih (n := n) (by omega) (by omega)]
          · rw [ih hm hn]
        · rw [ih hm hn]

@[simp] theorem mask_nil : mask [] = [] :=
  rfl

theorem mask_cons_of_not_isQuote {c : Char} (h : isQuote c = false) (cs : List Char) :
    mask (c :: cs) = c :: mask cs := by
  rw [mask, List.length_cons, blankStrings, if_neg (by simpa [isQuote] using h), mask]

theorem mask_string {q : Char} {a : List Char} (hq : isQuote q = true) (ha : Quoted q a)
    (cs : List Char) : mask (q :: a ++ cs) = ' ' :: mask cs := by
  rw [mask, List.cons_append, List.length_cons, blankStrings, if_pos (by simpa [isQuote] using hq),
    scanQuoted_of_quoted (ne_backslash_of_isQuote hq) ha]
  simp only [List.cons.injEq, true_and]
  exact blankStrings_eq (by simp) le_rfl

theorem mask_cons_of_open {q : Char} {cs : List Char} (hq : isQuote q = true)
    (h : scanQuoted q cs = none) : mask (q :: cs) = q :: mask cs := by
  rw [mask, List.length_cons, blankStrings, if_pos (by simpa [isQuote] using hq), h]
  rfl

theorem mask_append {a : List Char} (h : ∀ c ∈ a, isQuote c = false) (cs : List Char) :
    mask (a ++ cs) = a ++ mask cs := by
  induction a with
  | nil => rfl
  | cons c a ih =>
    rw [List.cons_append, mask_cons_of_not_isQuote (h c (by simp)),
      ih fun c hc => h c (List.mem_cons_of_mem _ hc), List.cons_append]

/-- To blank strings puts no word character first. -/
theorem wordFreeStart_mask {cs : List Char} (h : WordFreeStart cs) : WordFreeStart (mask cs) := by
  rcases cs with _ | ⟨c, cs⟩
  · exact h
  · rcases hq : isQuote c with _ | _
    · rw [mask_cons_of_not_isQuote hq]
      simpa [WordFreeStart] using h
    · rcases hs : scanQuoted c cs with _ | ⟨a, rest⟩
      · rw [mask_cons_of_open hq hs]
        simpa [WordFreeStart] using h
      · obtain ⟨rfl, ha⟩ := quoted_of_scanQuoted hs
        rw [← List.cons_append, mask_string hq ha]
        intro c hc
        cases hc
        rfl

/-! ## Texts in one line -/

/-- A character of a text that is brought into one line. -/
def lineBlank (c : Char) : Char :=
  if c = '\n' || c = '\r' then ' ' else c

@[simp] theorem lineBlank_ne_break (c : Char) : lineBlank c ≠ '\n' := by
  unfold lineBlank
  split_ifs with h
  · decide
  · simp_all

/-- Only blanks change. -/
theorem lineBlank_eq_iff {c d : Char} (hd : d ≠ ' ') : lineBlank c = d ↔ c = d ∧ c ≠ '\n' ∧ c ≠ '\r' := by
  unfold lineBlank
  split_ifs with h
  · simp only [Bool.or_eq_true, decide_eq_true_eq] at h
    exact iff_of_false hd.symm (by rintro ⟨-, hn, hr⟩; exact h.elim hn hr)
  · simp only [Bool.or_eq_true, decide_eq_true_eq, not_or] at h
    exact ⟨fun hc => ⟨hc, h⟩, And.left⟩

theorem lineBlank_of_isQuote {q : Char} (hq : isQuote q = true) : lineBlank q = q := by
  refine (lineBlank_eq_iff ?_).mpr ⟨rfl, ?_, ?_⟩ <;> rintro rfl <;> cases hq

theorem lineBlank_eq_quote_iff {c q : Char} (hq : isQuote q = true) : lineBlank c = q ↔ c = q := by
  constructor
  · refine fun h => ((lineBlank_eq_iff ?_).mp h).1
    rintro rfl
    cases hq
  · rintro rfl
    exact lineBlank_of_isQuote hq

@[simp] theorem isQuote_lineBlank (c : Char) : isQuote (lineBlank c) = isQuote c := by
  unfold lineBlank
  split_ifs with h
  · simp only [Bool.or_eq_true, decide_eq_true_eq] at h
    rcases h with rfl | rfl <;> rfl
  · rfl

@[simp] theorem isWord_lineBlank (c : Char) : isWord (lineBlank c) = isWord c := by
  unfold lineBlank
  split_ifs with h
  · simp only [Bool.or_eq_true, decide_eq_true_eq] at h
    rcases h with rfl | rfl <;> decide
  · rfl

/-- A backslash stands right before the end of a line. -/
def HasEscapedBreak (cs : List Char) : Prop :=
  ['\\', '\n'] <:+: cs

theorem Quoted.map_lineBlank {q : Char} (hq : isQuote q = true) {a : List Char} (h : Quoted q a) :
    Quoted q (a.map lineBlank) := by
  induction h with
  | close =>
    rw [List.map_singleton, lineBlank_of_isQuote hq]
    exact .close
  | @escape c a _ _ ih => exact .escape (lineBlank_ne_break c) ih
  | @char c a hc hb _ ih =>
    refine .char (mt (lineBlank_eq_quote_iff hq).mp hc) (fun h => hb ?_) ih
    exact ((lineBlank_eq_iff (by decide)).mp h).1

theorem quoted_of_map_lineBlank {q : Char} (hq : isQuote q = true) {a m : List Char}
    (hne : ¬ HasEscapedBreak a) (hm : a.map lineBlank = m) (h : Quoted q m) : Quoted q a := by
  induction h generalizing a with
  | close =>
    obtain ⟨c, rfl, hc⟩ := List.map_eq_singleton_iff.mp hm
    rw [(lineBlank_eq_quote_iff hq).mp hc]
    exact .close
  | @escape c cs _ _ ih =>
    obtain ⟨x, t, rfl, hx, ht⟩ := List.map_eq_cons_iff.mp hm
    obtain ⟨y, u, rfl, -, hu⟩ := List.map_eq_cons_iff.mp ht
    obtain rfl := ((lineBlank_eq_iff (by decide)).mp hx).1
    refine .escape ?_ (ih (fun hu => hne ?_) hu)
    · rintro rfl
      exact hne ⟨[], u, rfl⟩
    · exact hu.trans (List.IsSuffix.isInfix ⟨['\\', y], rfl⟩)
  | @char c cs hc hb _ ih =>
    obtain ⟨x, t, rfl, hx, ht⟩ := List.map_eq_cons_iff.mp hm
    refine .char ?_ ?_ (ih (fun hu => hne (hu.trans (List.suffix_cons _ _).isInfix)) ht)
    · rintro rfl
      exact hc (hx ▸ lineBlank_of_isQuote hq)
    · rintro rfl
      exact hb (hx ▸ rfl)

/-- Strings are blanked in one line as they are in several. -/
theorem mask_map_lineBlank {cs : List Char} (hne : ¬ HasEscapedBreak cs) :
    mask (cs.map lineBlank) = (mask cs).map lineBlank := by
  induction hn : cs.length using Nat.strong_induction_on generalizing cs with
  | _ n ih =>
    rcases cs with _ | ⟨c, cs⟩
    · rfl
    · have htail : ∀ {u}, u <:+ cs → mask (u.map lineBlank) = (mask u).map lineBlank :=
        fun {u} hu => by
          refine ih u.length ?_ (fun h => hne ?_) rfl
          · rw [← hn, List.length_cons]
            exact Nat.lt_succ_of_le hu.length_le
          · exact h.trans (hu.trans (List.suffix_cons _ _)).isInfix
      rcases hq : isQuote c with _ | _
      · rw [List.map_cons, mask_cons_of_not_isQuote (by rwa [isQuote_lineBlank]),
          mask_cons_of_not_isQuote hq, List.map_cons, htail (List.suffix_refl cs)]
      · have hc := lineBlank_of_isQuote hq
        have hb := ne_backslash_of_isQuote hq
        rcases hs : scanQuoted c cs with _ | ⟨a, rest⟩
        · have hs' : scanQuoted c (cs.map lineBlank) = none := by
            refine Option.eq_none_iff_forall_not_mem.mpr fun ⟨a', b'⟩ h => ?_
            obtain ⟨he, ha'⟩ := (scanQuoted_eq_some_iff hb).mp h
            obtain ⟨a, b, rfl, ha, -⟩ := List.map_eq_append_iff.mp he
            have hquoted := quoted_of_map_lineBlank hq (fun h => hne ?_) ha ha'
            · rw [scanQuoted_of_quoted hb hquoted] at hs
              cases hs
            · exact h.trans ((List.prefix_append a b).isInfix.trans (List.suffix_cons c _).isInfix)
          rw [List.map_cons, hc, mask_cons_of_open hq hs', mask_cons_of_open hq hs, List.map_cons, hc,
            htail (List.suffix_refl cs)]
        · obtain ⟨rfl, ha⟩ := quoted_of_scanQuoted hs
          rw [← List.cons_append, List.map_append, List.map_cons, hc,
            mask_string hq (ha.map_lineBlank hq), mask_string hq ha, List.map_cons,
            htail (List.suffix_append a rest)]
          rfl

end LiveMarkup
