import Mathlib
import LiveMarkup.Proofs.Expr.Variables
import LiveMarkup.Proofs.Template.Completion
import LiveMarkup.Proofs.Template.Outline
import LiveMarkup.Proofs.Text.Trim

/-!
# Reading the source of a tree of directives

Ends of directives are found by counting.  If no text holds what begins or ends a directive, the
count is right after the source of a template (`skips_outline`), and so a directive is read as it was
written (`openDirective_group`, `openDirective_loop`).

A scanner passes over a text in which it finds nothing to stop at, wherever in it it looks
(`Passes`).
-/

namespace LiveMarkup

open Text

variable {m s t u cs : List Char} {kind : DirectiveKind} {depth : Nat} {gap : List Char}

/-! ## Passing over text -/

/-- At no place in `s` stands `m`, if `u` follows `s`. -/
def Passes (m u : List Char) : List Char → Prop
  | [] => True
  | c :: s => after? m (c :: s ++ u) = none ∧ Passes m u s

theorem Passes.append (hs : Passes m (t ++ u) s) (ht : Passes m u t) : Passes m u (s ++ t) := by
  induction s with
  | nil => exact ht
  | cons c s ih =>
    rw [List.cons_append]
    exact ⟨by simpa using hs.1, ih hs.2⟩

/-- What begins in a text without ending in it continues in what follows. -/
theorem after?_of_not_within (hs : ¬ m <:+: s) (hne : s ≠ []) (hu : ∀ c ∈ u.head?, c ∉ m.tail) :
    after? m (s ++ u) = none := by
  rcases hafter : after? m (s ++ u) with _ | rest
  · rfl
  exfalso
  rcases List.append_eq_append_iff.mp (after?_eq_some_iff.mp hafter) with ⟨a, rfl, rfl⟩ | ⟨a, rfl, -⟩
  · rcases a with _ | ⟨c, a⟩
    · exact hs (by rw [List.append_nil])
    · obtain ⟨b, s, rfl⟩ := List.exists_cons_of_ne_nil hne
      refine hu c rfl ?_
      rw [List.cons_append, List.tail_cons]
      exact List.mem_append_right _ List.mem_cons_self
  · exact hs (List.prefix_append _ _).isInfix

theorem passes_of_not_within (hs : ¬ m <:+: s) (hu : ∀ c ∈ u.head?, c ∉ m.tail) : Passes m u s := by
  induction s with
  | nil => trivial
  | cons c s ih =>
    exact ⟨after?_of_not_within hs (List.cons_ne_nil c s) hu,
      ih fun h => hs (h.trans (List.suffix_cons c s).isInfix)⟩

/-- The next text begins with a directive or a marker, or there is none. -/
def BeginsNew (u : List Char) : Prop :=
  ∀ c ∈ u.head?, c = '\x7b' ∨ c = '<'

theorem beginsNew_nil : BeginsNew [] := fun _ h => by cases h

theorem beginsNew_brace : BeginsNew ('\x7b' :: u) := fun _ h => .inl (Option.some.inj h).symm

/-- Marks begin with a brace, and have neither another brace nor a bracket. -/
theorem mem_directiveMarks (hm : m ∈ directiveMarks) :
    ∃ m', m = '\x7b' :: m' ∧ '\x7b' ∉ m' ∧ '<' ∉ m' := by
  have table : ∀ m ∈ directiveMarks, m.head? = some '\x7b' ∧ '\x7b' ∉ m.tail ∧ '<' ∉ m.tail := by
    decide
  obtain ⟨h, h'⟩ := table m hm
  rcases m with _ | ⟨c, m'⟩
  · cases h
  · obtain rfl := Option.some.inj h
    exact ⟨m', rfl, h'⟩

/-- What begins with a directive or a marker does not continue a mark. -/
theorem BeginsNew.not_mem_tail (hu : BeginsNew u) (hm : m ∈ directiveMarks) : ∀ c ∈ u.head?, c ∉ m.tail := by
  intro c hc hmem
  obtain ⟨m', rfl, hbrace, hbracket⟩ := mem_directiveMarks hm
  rcases hu c hc with rfl | rfl
  · exact hbrace hmem
  · exact hbracket hmem

theorem passes_bare (hm : m ∈ directiveMarks) (hs : ¬ m <:+: s) (hu : BeginsNew u) : Passes m u s :=
  passes_of_not_within hs (hu.not_mem_tail hm)

theorem passes_of_no_brace (hm : m ∈ directiveMarks) (hs : '\x7b' ∉ s) : Passes m u s := by
  induction s with
  | nil => trivial
  | cons c s ih =>
    refine ⟨?_, ih fun h => hs (List.mem_cons_of_mem c h)⟩
    obtain ⟨m', rfl, -⟩ := mem_directiveMarks hm
    have hc : ¬ '\x7b' = c := by
      rintro rfl
      exact hs List.mem_cons_self
    rw [List.cons_append, after?, if_neg hc]

theorem opener_mem (kind : DirectiveKind) : kind.opener ∈ directiveMarks := by
  cases kind <;> decide

theorem closer_mem (kind : DirectiveKind) : kind.closer ∈ directiveMarks := by
  cases kind <;> decide

theorem branchOpener_mem : branchOpener ∈ directiveMarks := by decide

theorem after?_of_ne {m' : List Char} (hm : m ∈ directiveMarks) (hm' : m' ∈ directiveMarks) (hne : m ≠ m') :
    after? m (m' ++ u) = none := by
  have table : ∀ m ∈ directiveMarks, ∀ m' ∈ directiveMarks, m ≠ m' → ¬ m <+: m' := by decide
  rcases hafter : after? m (m' ++ u) with _ | rest
  · rfl
  · exfalso
    rcases List.append_eq_append_iff.mp (after?_eq_some_iff.mp hafter) with ⟨a, rfl, -⟩ | ⟨a, rfl, -⟩
    · exact table m' hm' _ hm hne.symm (List.prefix_append _ _)
    · exact table m hm _ hm' hne (List.prefix_append _ _)

theorem passes_mark {m' : List Char} (hm : m ∈ directiveMarks) (hm' : m' ∈ directiveMarks)
    (hne : m ≠ m') : Passes m u m' := by
  have h := after?_of_ne hm hm' hne (u := u)
  obtain ⟨rest, rfl, hbrace, -⟩ := mem_directiveMarks hm'
  exact ⟨h, passes_of_no_brace hm hbrace⟩

/-! ## Headers -/

theorem IsTest.no_brace {test : List Char} (h : IsTest test) (hgap : ∀ c ∈ gap, isAsciiBlank c = true) :
    '\x7b' ∉ testHeader gap test := by
  intro hmem
  simp only [testHeader, List.mem_append, List.mem_cons, List.not_mem_nil, or_false] at hmem
  rcases hmem with hmem | h' | hmem | h' | h'
  · cases hgap _ hmem
  · cases h'
  · exact h.free _ (by decide) hmem
  · cases h'
  · cases h'

/-- What follows the quote that begins a string, up to the quote that ends it. -/
inductive StringRest (q : Char) : List Char → Prop
  | close : StringRest q [q]
  | escape (c : Char) {s : List Char} : StringRest q s → StringRest q ('\\' :: c :: s)
  | char {c : Char} {s : List Char} : c ≠ q → c ≠ '\\' → StringRest q s → StringRest q (c :: s)

/-- Strings are closed, and parentheses outside of strings are properly nested. -/
inductive HeaderText : List Char → Prop
  | nil : HeaderText []
  | char {c : Char} {s : List Char} : c ∉ ['(', ')', '"', '\''] → HeaderText s → HeaderText (c :: s)
  | string {q : Char} {inside s : List Char} : q ∈ ['"', '\''] → StringRest q inside → HeaderText s →
    HeaderText (q :: (inside ++ s))
  | parens {inside s : List Char} : HeaderText inside → HeaderText s →
    HeaderText ('(' :: (inside ++ ')' :: s))

theorem Nests.headerText (h : Nests s) (hfree : ∀ c ∈ ['"', '\''], c ∉ s) : HeaderText s := by
  induction h with
  | nil => exact .nil
  | @char c s ho hc _ ih =>
    refine .char ?_ (ih fun q hq hmem => hfree q hq (List.mem_cons_of_mem c hmem))
    intro hmem
    simp only [List.mem_cons, List.not_mem_nil, or_false] at hmem
    rcases hmem with rfl | rfl | rfl | rfl
    · exact ho rfl
    · exact hc rfl
    · exact hfree '"' (by decide) List.mem_cons_self
    · exact hfree '\'' (by decide) List.mem_cons_self
  | parens _ _ ihi ihr =>
    exact .parens (ihi fun q hq hmem => hfree q hq (by simp [hmem]))
      (ihr fun q hq hmem => hfree q hq (by simp [hmem]))

theorem scanParens_quoted {q c : Char} (hc : c ≠ '\\') : scanParens depth (some q) (c :: cs) =
    (scanParens depth (if c = q then none else some q) cs).map fun (a, b) => (c :: a, b) := by
  rw [scanParens.eq_3]
  exact fun _ _ h _ => hc h

/-- The scan for the closing parenthesis passes over the rest of a string. -/
theorem scanParens_stringRest {q : Char} (hq : q ∈ ['"', '\'']) (h : StringRest q s) :
    scanParens depth (some q) (s ++ u) = (scanParens depth none u).map fun (a, b) => (s ++ a, b) := by
  have hslash : q ≠ '\\' := by
    rintro rfl
    revert hq
    decide
  induction h with
  | close =>
    rw [List.singleton_append, scanParens_quoted hslash, if_pos rfl]
    rfl
  | escape c _ ih =>
    rw [List.cons_append, List.cons_append, scanParens, ih, Option.map_map]
    rfl
  | char hne hc _ ih =>
    rw [List.cons_append, scanParens_quoted hc, if_neg hne, ih, Option.map_map]
    rfl

theorem scanParens_plain {c : Char} (hc : c ∉ ['(', ')', '"', '\'']) : scanParens depth none (c :: cs) =
    (scanParens depth none cs).map fun (a, b) => (c :: a, b) := by
  simp only [List.mem_cons, List.not_mem_nil, or_false, not_or] at hc
  obtain ⟨ho, hcl, hd, hs⟩ := hc
  rw [scanParens, if_neg hcl]
  simp only [ho, hd, hs, if_false, decide_false, Bool.or_self, Bool.false_eq_true]

/-- The scan for the closing parenthesis passes over what is nested. -/
theorem scanParens_headerText (h : HeaderText s) : ∀ {depth : Nat} {u : List Char}, 1 ≤ depth →
    scanParens depth none (s ++ u) = (scanParens depth none u).map fun (a, b) => (s ++ a, b) := by
  induction h with
  | nil =>
    intro depth u _
    simp
  | char hc _ ih =>
    intro depth u hdepth
    rw [List.cons_append, scanParens_plain hc, ih hdepth, Option.map_map]
    rfl
  | @string q inside s hq hinside _ ih =>
    intro depth u hdepth
    have hopen : scanParens depth none (q :: (inside ++ (s ++ u))) =
        (scanParens depth (some q) (inside ++ (s ++ u))).map fun (a, b) => (q :: a, b) := by
      simp only [List.mem_cons, List.not_mem_nil, or_false] at hq
      rcases hq with rfl | rfl <;> rfl
    rw [List.cons_append, List.append_assoc, hopen, scanParens_stringRest hq hinside, ih hdepth,
      Option.map_map, Option.map_map]
    congr 1
    funext x
    obtain ⟨a, b⟩ := x
    simp
  | @parens inside s _ _ ihi ihr =>
    intro depth u hdepth
    have hsum : '(' :: (inside ++ ')' :: s) ++ u = '(' :: (inside ++ ')' :: (s ++ u)) := by simp
    rw [hsum, scanParens, if_neg (by decide)]
    simp only [if_true, Char.reduceEq, if_false, decide_false, Bool.or_self, Bool.false_eq_true]
    rw [ihi (by omega), scanParens, if_pos rfl, if_neg (by omega), Nat.add_sub_cancel, ihr hdepth]
    simp only [Option.map_map]
    congr 1
    funext x
    obtain ⟨a, b⟩ := x
    simp

/-- The condition in a header is read whatever stands in its strings. -/
theorem conditionHeader?_headerText {test : List Char} (h : HeaderText test) (hne : trim test ≠ [])
    (hgap : ∀ c ∈ gap, isAsciiBlank c = true) :
    conditionHeader? (testHeader gap test ++ u) = some (trim test, testHeader gap test, u) := by
  have hdrop : (testHeader gap test ++ u).dropWhile isAsciiBlank = '(' :: (test ++ ')' :: '\x7d' :: u) := by
    rw [testHeader, List.append_assoc, List.dropWhile_append_of_pos hgap]
    simp [isAsciiBlank]
  have hscan : scanParens 1 none (test ++ ')' :: '\x7d' :: u) = some (test, ')' :: '\x7d' :: u) := by
    rw [scanParens_headerText h le_rfl, scanParens, if_pos rfl, if_pos le_rfl]
    simp
  have hbrace : ('\x7d' :: u).dropWhile isAsciiBlank = '\x7d' :: u := by
    simp [isAsciiBlank]
  rw [conditionHeader?, hdrop]
  simp only [hscan, Option.bind_eq_bind, Option.bind_some, List.drop_succ_cons, List.drop_zero, hbrace]
  rw [if_neg hne]
  simp

theorem conditionHeader?_testHeader {test : List Char} (h : IsTest test)
    (hgap : ∀ c ∈ gap, isAsciiBlank c = true) :
    conditionHeader? (testHeader gap test ++ u) = some (test, testHeader gap test, u) := by
  have htext := h.nests.headerText fun c hc => h.free c (List.mem_append_left ['\x7b', '\x7d'] hc)
  have hheader := conditionHeader?_headerText (u := u) htext (h.trimmed.symm ▸ h.ne_nil) hgap
  rwa [h.trimmed] at hheader

theorem dropWhile_testHeader {test : List Char} (hgap : ∀ c ∈ gap, isAsciiBlank c = true) :
    (testHeader gap test ++ u).dropWhile isBlank = '(' :: (test ++ [')', '\x7d']) ++ u := by
  have hblank : ∀ c ∈ gap, isBlank c = true := fun c hc => by
    have h := hgap c hc
    simp only [isAsciiBlank, Bool.or_eq_true, decide_eq_true_eq] at h
    rcases h with (((rfl | rfl) | rfl) | rfl) | rfl <;> decide
  rw [testHeader, List.append_assoc, List.dropWhile_append_of_pos hblank]
  rfl

theorem opener?_testHeader {test : List Char} (hgap : ∀ c ∈ gap, isAsciiBlank c = true) :
    opener? .condition (DirectiveKind.condition.opener ++ (testHeader gap test ++ u)) =
      some (testHeader gap test ++ u) := by
  rw [opener?, after?_eq_some_iff.mpr rfl, Option.filter_some, if_pos]
  simp only [decide_eq_true_eq]
  rw [dropWhile_testHeader hgap]
  rfl

theorem opener?_loopHeader {array item : List Char} :
    opener? .loop (DirectiveKind.loop.opener ++ (loopHeader array item ++ u)) =
      some (loopHeader array item ++ u) := by
  rw [opener?, after?_eq_some_iff.mpr rfl, Option.filter_some, if_pos]
  rfl

theorem isIdentRest_of_isIdentifier {item : List Char} (h : isIdentifier item = true) :
    item ≠ [] ∧ ∀ c ∈ item, isIdentRest c = true := by
  rcases item with _ | ⟨c, cs⟩
  · cases h
  · obtain ⟨hstart, hrest⟩ := (Bool.and_eq_true _ _).mp h
    refine ⟨List.cons_ne_nil c cs, fun x hx => ?_⟩
    rcases List.mem_cons.mp hx with rfl | hx
    · simp only [isIdentStart, isNameStart, isIdentRest, isNameRest, Char.isAlphanum,
        Bool.or_eq_true] at hstart ⊢
      tauto
    · exact List.all_eq_true.mp hrest x hx

theorem not_mem_of_isIdentifier {item : List Char} {c : Char} (h : isIdentifier item = true)
    (hc : isIdentRest c = false) : c ∉ item := fun hmem => by
  rw [(isIdentRest_of_isIdentifier h).2 c hmem] at hc
  cases hc

/-- The array in a header is read without the blanks around it. -/
theorem loopHeader?_eq {array item : List Char} (hne : trim array ≠ []) (hline : '\n' ∉ array)
    (hitem : isIdentifier item = true) :
    loopHeader? (loopHeader array item) = some (trim array, item) := by
  obtain ⟨hne', hrest⟩ := isIdentRest_of_isIdentifier hitem
  have hreverse : (loopHeader array item).reverse =
      item.reverse ++ ' ' :: 's' :: 'a' :: ' ' :: (array.reverse ++ [' ']) := by
    simp [loopHeader]
  have hword : ∀ c ∈ item.reverse, (!isBlank c) = true := fun c hc => by
    rw [isBlank_of_isIdentRest (hrest c (List.mem_reverse.mp hc))]
    rfl
  have hblank : isBlank ' ' = true := by decide
  have hs : isBlank 's' = false := by decide
  have hwords : (loopHeader array item).reverse.dropWhile isBlank = (loopHeader array item).reverse := by
    rw [hreverse]
    obtain ⟨c, r, hcr⟩ := List.exists_cons_of_ne_nil (List.reverse_ne_nil_iff.mpr hne')
    rw [hcr, List.cons_append, List.dropWhile_cons_of_neg]
    simpa using hword c (hcr ▸ List.mem_cons_self)
  have htake : ((loopHeader array item).reverse.takeWhile (!isBlank ·)).reverse = item := by
    rw [hreverse, List.takeWhile_append_of_pos hword, List.takeWhile_cons_of_neg (by simp [hblank]),
      List.append_nil, List.reverse_reverse]
  have hdrop : ((loopHeader array item).reverse.dropWhile (!isBlank ·)).dropWhile isBlank =
      's' :: 'a' :: ' ' :: (array.reverse ++ [' ']) := by
    rw [hreverse, List.dropWhile_append_of_pos hword, List.dropWhile_cons_of_neg (by simp [hblank]),
      List.dropWhile_cons_of_pos hblank, List.dropWhile_cons_of_neg (by simp [hs])]
  -- the blanks behind the array are left out first, and then those before it
  obtain ⟨before, after, harray, hbefore, hafter⟩ := trim_eq array
  obtain ⟨hfirst, hlast⟩ := ends_of_trim (trim_trim array)
  have hend : (' ' :: (array.reverse ++ [' '])).dropWhile isBlank =
      (trim array).reverse ++ (before.reverse ++ [' ']) := by
    rw [List.dropWhile_cons_of_pos hblank]
    nth_rewrite 1 [harray]
    rw [List.reverse_append, List.reverse_append, List.append_assoc, List.append_assoc,
      List.dropWhile_append_of_pos fun c hc => hafter c (List.mem_reverse.mp hc)]
    obtain ⟨c, r, hcr⟩ := List.exists_cons_of_ne_nil (List.reverse_ne_nil_iff.mpr hne)
    rw [hcr] at hlast ⊢
    rw [List.cons_append, List.dropWhile_cons_of_neg (by simp [not_isBlank_of_dropWhile hlast])]
  have hlead : ((trim array).reverse ++ (before.reverse ++ [' '])).reverse =
      ' ' :: (before ++ trim array) := by simp
  have hstart : (' ' :: (before ++ trim array)).dropWhile isBlank = trim array := by
    rw [List.dropWhile_cons_of_pos hblank, List.dropWhile_append_of_pos hbefore, hfirst]
  have hline' : '\n' ∉ trim array := fun hmem => hline ((isInfix_trim array).subset hmem)
  rw [loopHeader?, hwords, htake, hdrop]
  simp only [hend, hlead, hstart]
  simp [hitem, hne, hline', hblank]

theorem loopHeader?_loopHeader {array item : List Char} (h : IsArray array)
    (hitem : isIdentifier item = true) :
    loopHeader? (loopHeader array item) = some (array, item) := by
  have hheader := loopHeader?_eq (h.trimmed.symm ▸ h.ne_nil) (h.free '\n' (by decide)) hitem
  rwa [h.trimmed] at hheader

/-! ## Ends of directives -/

/-- The scan for the end of a directive passes over a text. -/
def Skips (kind : DirectiveKind) (depth : Nat) (u s : List Char) : Prop :=
  scanBlock kind depth (s ++ u) = (scanBlock kind depth u).map fun (a, b) => (s ++ a, b)

theorem Skips.append (hs : Skips kind depth (t ++ u) s) (ht : Skips kind depth u t) :
    Skips kind depth u (s ++ t) := by
  rw [Skips, List.append_assoc, hs, ht, Option.map_map]
  congr 1
  funext x
  obtain ⟨a, b⟩ := x
  simp

theorem opener?_eq_none (h : after? kind.opener cs = none) : opener? kind cs = none := by
  rw [opener?, h, Option.filter_none]

theorem skips_of_passes (ho : Passes kind.opener u s) (hc : Passes kind.closer u s) :
    Skips kind depth u s := by
  induction s with
  | nil =>
    rw [Skips]
    simp
  | cons c s ih =>
    have hopen : opener? kind (c :: (s ++ u)) = none := opener?_eq_none ho.1
    have hclose : after? kind.closer (c :: (s ++ u)) = none := hc.1
    rw [Skips, List.cons_append, scanBlock, hopen, hclose]
    rw [if_neg (by simp), ih ho.2 hc.2, Option.map_map]
    rfl

theorem skips_of_no_brace (h : '\x7b' ∉ s) : Skips kind depth u s :=
  skips_of_passes (passes_of_no_brace (opener_mem kind) h) (passes_of_no_brace (closer_mem kind) h)

theorem skips_mark (hm : m ∈ directiveMarks) (ho : m ≠ kind.opener) (hc : m ≠ kind.closer) :
    Skips kind depth u m :=
  skips_of_passes (passes_mark (opener_mem kind) hm ho.symm) (passes_mark (closer_mem kind) hm hc.symm)

/-- One more directive is open after an opener. -/
theorem scanBlock_opener (h : opener? kind (kind.opener ++ u) = some u) :
    scanBlock kind depth (kind.opener ++ u) =
      (scanBlock kind (depth + 1) u).map fun (a, b) => (kind.opener ++ a, b) := by
  obtain ⟨x, hx, hbrace, -⟩ := mem_directiveMarks (opener_mem kind)
  have hx' : Skips kind (depth + 1) u x := skips_of_no_brace hbrace
  rw [hx] at h ⊢
  rw [List.cons_append] at h ⊢
  rw [scanBlock, if_pos (by rw [h]; rfl), hx', Option.map_map]
  rfl

/-- A closer ends the directive that was opened last. -/
theorem scanBlock_closer : scanBlock kind depth (kind.closer ++ u) =
    if depth ≤ 1 then some ([], u)
    else (scanBlock kind (depth - 1) u).map fun (a, b) => (kind.closer ++ a, b) := by
  obtain ⟨x, hx, hbrace, -⟩ := mem_directiveMarks (closer_mem kind)
  have hx' : Skips kind (depth - 1) u x := skips_of_no_brace hbrace
  have hopen : opener? kind (kind.closer ++ u) = none :=
    opener?_eq_none (after?_of_ne (opener_mem kind) (closer_mem kind) (by cases kind <;> decide))
  have hclose : after? kind.closer (kind.closer ++ u) = some u := after?_eq_some_iff.mpr rfl
  rw [hx] at hopen hclose ⊢
  rw [List.cons_append] at hopen hclose ⊢
  rw [scanBlock, hopen, hx, hclose]
  rw [if_neg (by simp)]
  simp only
  split
  · rfl
  · rw [hx', Option.map_map]
    rfl

/-- The scan passes over a whole directive of any kind if it passes over the body. -/
theorem skips_directive {k : DirectiveKind} {header body : List Char} (hdepth : 1 ≤ depth)
    (hopen : opener? k (k.opener ++ (header ++ (body ++ k.closer ++ u))) =
      some (header ++ (body ++ k.closer ++ u)))
    (hheader : '\x7b' ∉ header)
    (hbody : ∀ depth, 1 ≤ depth → Skips kind depth (k.closer ++ u) body) :
    Skips kind depth u (k.opener ++ (header ++ (body ++ k.closer))) := by
  by_cases hk : k = kind
  · subst hk
    have hinside : scanBlock k (depth + 1) (header ++ (body ++ k.closer ++ u)) =
        (scanBlock k depth u).map fun (a, b) => (header ++ (body ++ (k.closer ++ a)), b) := by
      have h1 : Skips k (depth + 1) (body ++ (k.closer ++ u)) header := skips_of_no_brace hheader
      rw [List.append_assoc, h1, hbody (depth + 1) (by omega), scanBlock_closer, if_neg (by omega),
        Nat.add_sub_cancel, Option.map_map, Option.map_map]
      rfl
    have hsum : k.opener ++ (header ++ (body ++ k.closer)) ++ u =
        k.opener ++ (header ++ (body ++ k.closer ++ u)) := by
      simp only [List.append_assoc]
    rw [Skips, hsum, scanBlock_opener hopen, hinside, Option.map_map]
    congr 1
    funext x
    obtain ⟨a, b⟩ := x
    simp
  · have hopener : k.opener ≠ kind.opener ∧ k.opener ≠ kind.closer := by
      revert hk
      cases k <;> cases kind <;> decide
    have hcloser : k.closer ≠ kind.opener ∧ k.closer ≠ kind.closer := by
      revert hk
      cases k <;> cases kind <;> decide
    exact (skips_mark (opener_mem k) hopener.1 hopener.2).append ((skips_of_no_brace hheader).append
      ((hbody depth hdepth).append (skips_mark (closer_mem k) hcloser.1 hcloser.2)))

theorem not_mem_loopHeader {array item : List Char} {c : Char} (harray : c ∉ array)
    (hitem : isIdentifier item = true) (hword : isIdentRest c = false) (has : c ∉ ' ' :: " as ".toList) :
    c ∉ loopHeader array item := by
  intro hmem
  simp only [loopHeader, List.mem_cons, List.mem_append] at hmem
  rcases hmem with rfl | hmem | hmem | hmem
  · exact has List.mem_cons_self
  · exact harray hmem
  · exact has (List.mem_cons_of_mem _ hmem)
  · exact not_mem_of_isIdentifier hitem hword hmem

theorem IsArray.no_brace {array item : List Char} (h : IsArray array)
    (hitem : isIdentifier item = true) :
    '\x7b' ∉ loopHeader array item ∧ '\x7d' ∉ loopHeader array item :=
  ⟨not_mem_loopHeader (h.free _ (by decide)) hitem (by decide) (by decide),
    not_mem_loopHeader (h.free _ (by decide)) hitem (by decide) (by decide)⟩

theorem loopHeader_no_brace {array item : List Char} (h : IsArray array)
    (hitem : isIdentifier item = true) : '\x7b' ∉ loopHeader array item ++ ['\x7d'] := by
  intro hmem
  rcases List.mem_append.mp hmem with hmem | hmem
  · exact (h.no_brace hitem).1 hmem
  · revert hmem
    decide

/-! ## The source of a template -/

theorem beginsNew_directive (gap : List Char) (d : Directive) (u : List Char) :
    BeginsNew (d.source gap ++ u) := by
  cases d <;> (rw [Directive.source]; exact beginsNew_brace)

theorem beginsNew_branches (gap : List Char) (more : Branches) (hu : BeginsNew u) :
    BeginsNew (more.source gap ++ u) := by
  cases more with
  | done => rwa [Branches.source]
  | otherwise => rw [Branches.source]; exact beginsNew_brace
  | elseIf => rw [Branches.source]; exact beginsNew_brace

theorem skips_bare (hs : IsBare s) (hu : BeginsNew u) : Skips kind depth u s :=
  skips_of_passes (passes_bare (opener_mem kind) (hs _ (opener_mem kind)) hu)
    (passes_bare (closer_mem kind) (hs _ (closer_mem kind)) hu)

mutual

/-- The scan for the end of a directive passes over the source of a template. -/
theorem skips_outline (hgap : ∀ c ∈ gap, isAsciiBlank c = true) : ∀ (f : Outline) {depth : Nat}
    {u : List Char}, f.WellFormed → 1 ≤ depth → BeginsNew u → Skips kind depth u (f.source gap)
  | .text cs, depth, u, hf, _, hu => by
    rw [Outline.source]
    exact skips_bare hf hu
  | .directive cs d rest, depth, u, hf, hdepth, hu => by
    obtain ⟨hcs, hd, hrest⟩ := hf
    rw [Outline.source]
    refine (skips_bare hcs ?_).append ((skips_of_directive hgap d hd hdepth).append
      (skips_outline hgap rest hrest hdepth hu))
    rw [List.append_assoc]
    exact beginsNew_directive gap d _

/-- The scan passes over the source of a directive. -/
theorem skips_of_directive (hgap : ∀ c ∈ gap, isAsciiBlank c = true) : ∀ (d : Directive) {depth : Nat}
    {u : List Char}, d.WellFormed → 1 ≤ depth → Skips kind depth u (d.source gap)
  | .group test body more, depth, u, hd, hdepth => by
    obtain ⟨htest, hbody, hmore⟩ := hd
    rw [Directive.source]
    refine skips_directive hdepth (opener?_testHeader hgap) (htest.no_brace hgap) fun depth hdepth => ?_
    refine (skips_outline hgap body hbody hdepth ?_).append
      (skips_branches hgap more hmore hdepth beginsNew_brace)
    exact beginsNew_branches gap more beginsNew_brace
  | .loop array item body, depth, u, hd, hdepth => by
    obtain ⟨harray, hitem, hbody⟩ := hd
    rw [Directive.source]
    refine skips_directive hdepth ?_ (loopHeader_no_brace harray hitem) fun depth hdepth =>
      skips_outline hgap body hbody hdepth beginsNew_brace
    rw [List.append_assoc]
    exact opener?_loopHeader

/-- The scan passes over the source of branches. -/
theorem skips_branches (hgap : ∀ c ∈ gap, isAsciiBlank c = true) : ∀ (b : Branches) {depth : Nat}
    {u : List Char}, b.WellFormed → 1 ≤ depth → BeginsNew u → Skips kind depth u (b.source gap)
  | .done, depth, u, _, _, _ => by
    rw [Branches.source]
    exact skips_of_no_brace List.not_mem_nil
  | .otherwise body, depth, u, hb, hdepth, hu => by
    have hword : Skips kind depth (body.source gap ++ u) ['\x7d'] := skips_of_no_brace (by decide)
    rw [Branches.source]
    refine (skips_mark branchOpener_mem ?_ ?_).append
      (hword.append (skips_outline hgap body hb hdepth hu))
    · cases kind <;> decide
    · cases kind <;> decide
  | .elseIf test body more, depth, u, hb, hdepth, hu => by
    obtain ⟨htest, hbody, hmore⟩ := hb
    have hword : ∀ v, Skips kind depth v ['i', 'f'] := fun v => skips_of_no_brace (by decide)
    have hheader : ∀ v, Skips kind depth v (testHeader gap test) := fun v =>
      skips_of_no_brace (htest.no_brace hgap)
    have hbodies := (skips_outline hgap body hbody hdepth (beginsNew_branches gap more hu)).append
      (skips_branches hgap more hmore hdepth hu)
    rw [Branches.source]
    refine (skips_mark branchOpener_mem ?_ ?_).append ((hword _).append ((hheader _).append hbodies))
    · cases kind <;> decide
    · cases kind <;> decide

end

section

variable (hgap : ∀ c ∈ gap, isAsciiBlank c = true)
include hgap

/-- A group is opened: its condition, its body, and what follows it. -/
theorem openDirective_group {test : List Char} {body : Outline} {more : Branches} (pos : Nat)
    (htest : IsTest test) (hbody : body.WellFormed) (hmore : more.WellFormed) :
    openDirective .condition pos (testHeader gap test ++
        (body.source gap ++ more.source gap ++ DirectiveKind.condition.closer) ++ u) =
      .ok (.ok (.condition test (body.source gap ++ more.source gap), u)) := by
  have hheader : Skips .condition 1 (body.source gap ++ (more.source gap ++
      (DirectiveKind.condition.closer ++ u))) (testHeader gap test) :=
    skips_of_no_brace (htest.no_brace hgap)
  have hbody' : Skips .condition 1 (more.source gap ++ (DirectiveKind.condition.closer ++ u))
      (body.source gap) :=
    skips_outline hgap body hbody le_rfl (beginsNew_branches gap more beginsNew_brace)
  have hmore' : Skips .condition 1 (DirectiveKind.condition.closer ++ u) (more.source gap) :=
    skips_branches hgap more hmore le_rfl beginsNew_brace
  have hscan : scanBlock .condition 1 (testHeader gap test ++ (body.source gap ++ (more.source gap ++
      (DirectiveKind.condition.closer ++ u)))) =
        some (testHeader gap test ++ (body.source gap ++ more.source gap), u) := by
    rw [hheader, hbody', hmore', scanBlock_closer, if_pos le_rfl]
    simp
  have hsum : testHeader gap test ++ (body.source gap ++ more.source gap ++
      DirectiveKind.condition.closer) ++ u = testHeader gap test ++ (body.source gap ++
        (more.source gap ++ (DirectiveKind.condition.closer ++ u))) := by
    simp only [List.append_assoc]
  rw [hsum]
  exact openDirective_of_conditionHeader pos hscan (conditionHeader?_testHeader htest hgap)

/-- A loop is opened: its array, its item, its body, and what follows it. -/
theorem openDirective_loop {array item : List Char} {body : Outline} (pos : Nat) (harray : IsArray array)
    (hitem : isIdentifier item = true) (hbody : body.WellFormed) :
    openDirective .loop pos (loopHeader array item ++ ['\x7d'] ++
        (body.source gap ++ DirectiveKind.loop.closer) ++ u) =
      .ok (.ok (.loop array item (body.source gap), u)) := by
  have hheader : Skips .loop 1 (body.source gap ++ (DirectiveKind.loop.closer ++ u))
      (loopHeader array item ++ ['\x7d']) :=
    skips_of_no_brace (loopHeader_no_brace harray hitem)
  have hbody' : Skips .loop 1 (DirectiveKind.loop.closer ++ u) (body.source gap) :=
    skips_outline hgap body hbody le_rfl beginsNew_brace
  have hscan : scanBlock .loop 1 (loopHeader array item ++ ['\x7d'] ++ (body.source gap ++
      (DirectiveKind.loop.closer ++ u))) =
        some (loopHeader array item ++ '\x7d' :: body.source gap, u) := by
    rw [hheader, hbody', scanBlock_closer, if_pos le_rfl]
    simp
  have hsum : loopHeader array item ++ ['\x7d'] ++ (body.source gap ++ DirectiveKind.loop.closer) ++ u =
      loopHeader array item ++ ['\x7d'] ++ (body.source gap ++ (DirectiveKind.loop.closer ++ u)) := by
    simp only [List.append_assoc]
  rw [hsum, openDirective_of_loopHeader pos hscan (harray.no_brace hitem).2
    (loopHeader?_loopHeader harray hitem)]

end

end LiveMarkup
