import Mathlib.Tactic.Common
import LiveMarkup.Proofs.Result
import LiveMarkup.Template.Compile

/-!
# When a compilation completes

The end of a condition is found by counting openers and closers, whatever they stand in, but its
header is read with its strings and parentheses.  So a closer inside a string of the header can be
taken for the end of the condition, and then the header ends only after it (`HeaderPastEnd`).

A compilation fails exactly when it comes to such a condition (`compile_completes_iff`), where it
comes to the text itself, to the bodies of the directives that it takes out, and to what follows
them (`Reaches`).  In all other directives the header, the body and the closer follow one another
(`Opens.eq`).
-/

namespace LiveMarkup

open Text

/-- A directive stands at the start of a text: its body, and the text after its closer. -/
inductive Opens : List Char → List Char → List Char → Prop where
  | condition {cs r header body rest test after : List Char} :
    opener? .condition cs = some r → scanBlock .condition 1 r = some (header ++ body, rest) →
      conditionHeader? r = some (test, header, after) → Opens cs body rest
  | loop {cs r header body rest array item : List Char} :
    opener? .loop cs = some r → scanBlock .loop 1 r = some (header ++ '\x7d' :: body, rest) →
      '\x7d' ∉ header → loopHeader? header = some (array, item) → Opens cs body rest

/-- A condition stands at the start of a text, and its header ends after the start of the closer
that is found for it. -/
def HeaderPastEnd (cs : List Char) : Prop :=
  ∃ r inside rest test header after, opener? .condition cs = some r ∧
    scanBlock .condition 1 r = some (inside, rest) ∧
      conditionHeader? r = some (test, header, after) ∧ inside.length < header.length

/-- The places that the compilation of a text comes to. -/
inductive Reaches : List Char → List Char → Prop where
  | here (cs : List Char) : Reaches cs cs
  | next {c : Char} {cs t : List Char} :
    (∀ body rest, ¬ Opens (c :: cs) body rest) → Reaches cs t → Reaches (c :: cs) t
  | inside {cs body rest t : List Char} : Opens cs body rest → Reaches body t → Reaches cs t
  | behind {cs body rest t : List Char} : Opens cs body rest → Reaches rest t → Reaches cs t

/-! ## Scanners lose nothing -/

theorem scanBlock_eq {kind : DirectiveKind} : ∀ {cs a b : List Char} {depth : Nat},
    scanBlock kind depth cs = some (a, b) → cs = a ++ kind.closer ++ b
  | [], a, b, depth, h => by simp [scanBlock] at h
  | c :: cs, a, b, depth, h => by
    simp only [scanBlock] at h
    split at h
    · obtain ⟨⟨a', b'⟩, h', he⟩ := Option.map_eq_some_iff.mp h
      cases he
      simp [scanBlock_eq h']
    · split at h
      · rename_i rest hr
        split_ifs at h
        · cases h
          simpa using after?_eq_some_iff.mp hr
        · obtain ⟨⟨a', b'⟩, h', he⟩ := Option.map_eq_some_iff.mp h
          cases he
          simp [scanBlock_eq h']
      · obtain ⟨⟨a', b'⟩, h', he⟩ := Option.map_eq_some_iff.mp h
        cases he
        simp [scanBlock_eq h']

theorem scanParens_eq {depth : Nat} {quote : Option Char} {cs a b : List Char}
    (h : scanParens depth quote cs = some (a, b)) : cs = a ++ b := by
  induction depth, quote, cs using scanParens.induct generalizing a b with
  | case1 => simp [scanParens] at h
  | case2 depth q c cs ih =>
    simp only [scanParens] at h
    obtain ⟨⟨a', b'⟩, h', he⟩ := Option.map_eq_some_iff.mp h
    cases he
    simp [ih h']
  | case3 depth q c cs hne ih =>
    rw [scanParens.eq_3 _ _ _ _ hne] at h
    obtain ⟨⟨a', b'⟩, h', he⟩ := Option.map_eq_some_iff.mp h
    cases he
    simp [ih h']
  | case4 => 
    simp_all [scanParens]
  | case5 depth cs hd ih =>
    simp only [scanParens, ↓reduceIte, hd, Option.map_eq_some_iff] at h
    obtain ⟨⟨a', b'⟩, h', he⟩ := h
    cases he
    simp [ih h']
  | case6 depth c cs hc =>
    rename_i ih
    simp only [scanParens, hc, ↓reduceIte, Option.map_eq_some_iff] at h
    obtain ⟨⟨a', b'⟩, h', he⟩ := h
    cases he
    simp [ih h']

/-- The header of a condition is where its text starts. -/
theorem conditionHeader?_eq {cs test header rest : List Char}
    (h : conditionHeader? cs = some (test, header, rest)) : cs = header ++ rest := by
  simp only [conditionHeader?] at h
  split at h
  · rename_i r hr
    simp only [Option.bind_eq_bind, Option.bind_eq_some_iff, Prod.exists] at h
    obtain ⟨condition, r', hp, h⟩ := h
    split at h
    · rename_i after ha
      split_ifs at h
      cases h
      have hinner : rest <:+ r' :=
        (ha ▸ List.suffix_cons _ _).trans ((List.dropWhile_suffix _).trans (List.drop_suffix _ _))
      have houter : r' <:+ cs := by
        have hr' : r' <:+ cs.dropWhile isAsciiBlank := by
          rw [hr, scanParens_eq hp]
          exact (List.suffix_append _ _).trans (List.suffix_cons _ _)
        exact hr'.trans (List.dropWhile_suffix _)
      obtain ⟨before, rfl⟩ := hinner.trans houter
      simp
    · cases h
  · cases h

theorem opener?_eq {kind : DirectiveKind} {cs r : List Char} (h : opener? kind cs = some r) :
    cs = kind.opener ++ r :=
  after?_eq_some_iff.mp (Option.filter_eq_some_iff.mp h).1

/-- The header of a directive, its body and its closer follow one another. -/
theorem Opens.eq {cs body rest : List Char} (h : Opens cs body rest) :
    ∃ (kind : DirectiveKind) (header : List Char),
      cs = kind.opener ++ header ++ body ++ kind.closer ++ rest := by
  cases h with
  | @condition r header _ _ _ _ ho hs hc =>
    exact ⟨.condition, header, by rw [opener?_eq ho, scanBlock_eq hs]; simp⟩
  | @loop r header _ _ _ _ ho hs hh hl =>
    exact ⟨.loop, header ++ ['\x7d'], by rw [opener?_eq ho, scanBlock_eq hs]; simp⟩

theorem Opens.length_lt {cs body rest : List Char} (h : Opens cs body rest) :
    body.length < cs.length ∧ rest.length < cs.length := by
  obtain ⟨kind, header, rfl⟩ := h.eq
  simp only [List.length_append, DirectiveKind.opener, List.length_cons]
  omega

/-! ## What opening a directive finds -/

/-- Of two beginnings of a text, one is a beginning of the other unless it is longer. -/
theorem after?_eq_none_iff {a b cs : List Char} (ha : a <+: cs) (hb : b <+: cs) :
    after? a b = none ↔ b.length < a.length := by
  constructor
  · intro h
    by_contra hle
    obtain ⟨rest, hrest⟩ := List.prefix_of_prefix_length_le ha hb (by omega)
    rw [after?_eq_some_iff.mpr hrest.symm] at h
    cases h
  · intro hlt
    rcases h : after? a b with _ | rest
    · rfl
    · rw [after?_eq_some_iff.mp h, List.length_append] at hlt
      omega

/-- A text is cut at the first place of a character just so. -/
theorem cut_at_iff {c : Char} {cs a b : List Char} :
    cs = a ++ c :: b ∧ c ∉ a ↔ cs.takeWhile (· ≠ c) = a ∧ cs.dropWhile (· ≠ c) = c :: b := by
  constructor
  · rintro ⟨rfl, h⟩
    have ha : ∀ x ∈ a, decide (x ≠ c) = true := fun x hx => by
      simp only [ne_eq, decide_not, Bool.not_eq_true', decide_eq_false_iff_not]
      rintro rfl
      exact h hx
    rw [List.takeWhile_append_of_pos ha, List.dropWhile_append_of_pos ha]
    simp
  · rintro ⟨rfl, hd⟩
    refine ⟨?_, fun hc => ?_⟩
    · rw [← hd, List.takeWhile_append_dropWhile]
    · have := List.all_eq_true.mp List.all_takeWhile c hc
      simp at this

theorem opener?_condition_of_loop {cs r : List Char} (h : opener? .loop cs = some r) :
    opener? .condition cs = none := by
  rw [opener?_eq h]
  simp [opener?, DirectiveKind.opener, DirectiveKind.keyword, after?]

theorem directive?_eq_some_iff {kind : DirectiveKind} {cs r : List Char} :
    directive? cs = some (kind, r) ↔ opener? kind cs = some r := by
  unfold directive?
  rcases hc : opener? .condition cs with _ | r'
  · cases kind
    · simp [hc]
    · simp
  · cases kind
    · simp [hc]
    · simp only [Option.some.injEq, Prod.mk.injEq, reduceCtorEq, false_and, false_iff]
      intro hl
      rw [opener?_condition_of_loop hl] at hc
      cases hc

/-- The body of a directive. -/
def Opened.body : Opened → List Char
  | condition _ body => body
  | loop _ _ body => body

variable {kind : DirectiveKind} {cs r : List Char}

/-- A condition is opened if its header lies in the text up to its closer. -/
theorem openDirective_of_conditionHeader (pos : Nat) {header body rest test after : List Char}
    (hs : scanBlock .condition 1 r = some (header ++ body, rest))
    (hc : conditionHeader? r = some (test, header, after)) :
    openDirective .condition pos r = .ok (.ok (.condition test body, rest)) := by
  simp [openDirective, hs, hc, after?_eq_some_iff.mpr]

/-- A loop is opened if what stands before the first brace is a header. -/
theorem openDirective_of_loopHeader (pos : Nat) {header body rest array item : List Char}
    (hs : scanBlock .loop 1 r = some (header ++ '\x7d' :: body, rest)) (hh : '\x7d' ∉ header)
    (hl : loopHeader? header = some (array, item)) :
    openDirective .loop pos r = .ok (.ok (.loop array item body, rest)) := by
  obtain ⟨ht, hd⟩ := cut_at_iff.mp ⟨Eq.refl (header ++ '\x7d' :: body), hh⟩
  simp only [openDirective, hs, ht, hd, hl]

theorem opens_iff_of_condition (pos : Nat) (h : opener? .condition cs = some r)
    {body rest : List Char} : Opens cs body rest ↔
      ∃ opened, openDirective .condition pos r = .ok (.ok (opened, rest)) ∧ opened.body = body := by
  constructor
  · rintro (⟨ho, hs, hc⟩ | ⟨ho, -⟩)
    · rw [h, Option.some.injEq] at ho
      subst ho
      exact ⟨_, openDirective_of_conditionHeader pos hs hc, rfl⟩
    · rw [opener?_condition_of_loop ho] at h
      cases h
  · rintro ⟨opened, ho, rfl⟩
    simp only [openDirective] at ho
    rcases hs : scanBlock .condition 1 r with _ | ⟨inside, rest'⟩ <;> rw [hs] at ho
    · simp at ho
    · rcases hc : conditionHeader? r with _ | ⟨test, header, after⟩ <;>
        simp only [hc] at ho
      · simp at ho
      · rcases ha : after? header inside with _ | body <;> simp only [ha] at ho
        · simp at ho
        · simp only [Except.ok.injEq, Prod.mk.injEq] at ho
          obtain ⟨rfl, rfl⟩ := ho
          rw [after?_eq_some_iff] at ha
          subst ha
          exact .condition h hs hc

theorem opens_iff_of_loop (pos : Nat) (h : opener? .loop cs = some r) {body rest : List Char} :
    Opens cs body rest ↔
      ∃ opened, openDirective .loop pos r = .ok (.ok (opened, rest)) ∧ opened.body = body := by
  constructor
  · rintro (⟨ho, -⟩ | @⟨_, _, _, _, array, item, ho, hs, hh, hl⟩)
    · rw [opener?_condition_of_loop h] at ho
      cases ho
    · rw [h, Option.some.injEq] at ho
      subst ho
      exact ⟨_, openDirective_of_loopHeader pos hs hh hl, rfl⟩
  · rintro ⟨opened, ho, rfl⟩
    simp only [openDirective] at ho
    rcases hs : scanBlock .loop 1 r with _ | ⟨inside, rest'⟩ <;> rw [hs] at ho
    · simp at ho
    · simp only at ho
      split at ho
      · simp at ho
      · rename_i c body hb
        split at ho
        · simp at ho
        · rename_i array item hl
          simp only [Except.ok.injEq, Prod.mk.injEq] at ho
          obtain ⟨rfl, rfl⟩ := ho
          obtain rfl : c = '\x7d' := by
            have hne : inside.dropWhile (· ≠ '\x7d') ≠ [] := by
              rw [hb]
              exact List.cons_ne_nil _ _
            have hc := List.head_dropWhile_not _ hne
            simpa only [hb, List.head_cons, decide_eq_false_iff_not, not_not] using hc
          obtain ⟨hi, hh⟩ := cut_at_iff.mpr ⟨rfl, hb⟩
          rw [hi] at hs
          exact .loop h hs hh hl

theorem opens_iff (pos : Nat) (h : opener? kind cs = some r) {body rest : List Char} :
    Opens cs body rest ↔
      ∃ opened, openDirective kind pos r = .ok (.ok (opened, rest)) ∧ opened.body = body := by
  cases kind
  · exact opens_iff_of_condition pos h
  · exact opens_iff_of_loop pos h

theorem not_opens_of_none (h : directive? cs = none) (body rest : List Char) :
    ¬ Opens cs body rest := by
  rintro (⟨ho, -⟩ | ⟨ho, -⟩)
  all_goals
    rw [directive?_eq_some_iff.mpr ho] at h
    cases h

theorem headerPastEnd_iff (pos : Nat) (h : opener? kind cs = some r) :
    HeaderPastEnd cs ↔ openDirective kind pos r = .error .headerPastEnd := by
  constructor
  · rintro ⟨r', inside, rest, test, header, after, ho, hs, hc, hlt⟩
    cases kind
    · rw [h, Option.some.injEq] at ho
      subst ho
      have hin : inside <+: r := ⟨_, by rw [scanBlock_eq hs, List.append_assoc]⟩
      have hhd : header <+: r := ⟨after, (conditionHeader?_eq hc).symm⟩
      simp only [openDirective, hs, hc, (after?_eq_none_iff hhd hin).mpr hlt]
    · rw [opener?_condition_of_loop h] at ho
      cases ho
  · intro ho
    simp only [openDirective] at ho
    rcases hs : scanBlock kind 1 r with _ | ⟨inside, rest⟩ <;> rw [hs] at ho
    · cases ho
    · cases kind
      · rcases hc : conditionHeader? r with _ | ⟨test, header, after⟩ <;> simp only [hc] at ho
        · cases ho
        · rcases ha : after? header inside with _ | body <;> simp only [ha] at ho
          · have hin : inside <+: r := ⟨_, by rw [scanBlock_eq hs, List.append_assoc]⟩
            have hhd : header <+: r := ⟨after, (conditionHeader?_eq hc).symm⟩
            exact ⟨r, inside, rest, test, header, after, h, hs, hc,
              (after?_eq_none_iff hhd hin).mp ha⟩
          · cases ho
      · simp only at ho
        split at ho
        · cases ho
        · split at ho <;> cases ho

theorem not_headerPastEnd_of_none (h : directive? cs = none) : ¬ HeaderPastEnd cs := by
  rintro ⟨r, -, -, -, -, -, ho, -⟩
  rw [directive?_eq_some_iff.mpr ho] at h
  cases h

/-! ## Completion -/

/-- A text is compiled. -/
def Completes (fuel pos : Nat) (cs : List Char) (f : Findings) : Prop :=
  ∃ r, compileFrom fuel pos cs f = .ok r

/-- No place that a text comes to has a header that ends too late. -/
def Sound (cs : List Char) : Prop :=
  ∀ t, Reaches cs t → ¬ HeaderPastEnd t

theorem sound_nil : Sound [] := by
  intro t ht hp
  cases ht with
  | here =>
    obtain ⟨r, _, _, _, _, _, ho, -⟩ := hp
    simp [opener?, after?, DirectiveKind.opener] at ho
  | inside ho _ => exact absurd ho.length_lt.1 (by simp)
  | behind ho _ => exact absurd ho.length_lt.1 (by simp)

theorem sound_cons_of_not_opens {c : Char} {cs : List Char}
    (h : ∀ body rest, ¬ Opens (c :: cs) body rest) :
    Sound (c :: cs) ↔ ¬ HeaderPastEnd (c :: cs) ∧ Sound cs := by
  constructor
  · exact fun hs => ⟨hs _ (.here _), fun t ht => hs t (.next h ht)⟩
  · rintro ⟨hp, hs⟩ t ht
    cases ht with
    | here => exact hp
    | next _ ht => exact hs t ht
    | inside ho _ => exact absurd ho (h _ _)
    | behind ho _ => exact absurd ho (h _ _)

/-- The body of a directive and the text after its closer are determined by the text. -/
theorem Opens.unique {body rest body' rest' : List Char} (h : Opens cs body rest)
    (h' : Opens cs body' rest') : body = body' ∧ rest = rest' := by
  obtain ⟨kind, r, ho⟩ : ∃ kind r, opener? kind cs = some r := by
    cases h with
    | condition ho => exact ⟨_, _, ho⟩
    | loop ho => exact ⟨_, _, ho⟩
  obtain ⟨o, ho₁, rfl⟩ := (opens_iff 0 ho).mp h
  obtain ⟨o', ho₂, rfl⟩ := (opens_iff 0 ho).mp h'
  rw [ho₁] at ho₂
  cases ho₂
  exact ⟨rfl, rfl⟩

theorem sound_of_opens {body rest : List Char} (h : Opens cs body rest) :
    Sound cs ↔ ¬ HeaderPastEnd cs ∧ Sound body ∧ Sound rest := by
  constructor
  · exact fun hs => ⟨hs _ (.here _), fun t ht => hs t (.inside h ht),
      fun t ht => hs t (.behind h ht)⟩
  · rintro ⟨hp, hb, hr⟩ t ht
    cases ht with
    | here => exact hp
    | next hn _ => exact absurd h (hn _ _)
    | inside ho ht =>
      obtain ⟨rfl, -⟩ := h.unique ho
      exact hb t ht
    | behind ho ht =>
      obtain ⟨-, rfl⟩ := h.unique ho
      exact hr t ht

theorem compileFrom_completes_iff {fuel : Nat} : ∀ {pos : Nat} {cs : List Char} {f : Findings},
    cs.length < fuel → (Completes fuel pos cs f ↔ Sound cs) := by
  induction fuel with
  | zero => intro _ cs _ h; omega
  | succ fuel ih =>
    intro pos cs f hlen
    rcases cs with _ | ⟨c, cs⟩
    · exact iff_of_true ⟨_, rfl⟩ sound_nil
    · rw [List.length_cons, Nat.succ_lt_succ_iff] at hlen
      rw [Completes, compileFrom]
      rcases hd : directive? (c :: cs) with _ | ⟨kind, r⟩
      · rw [sound_cons_of_not_opens (not_opens_of_none hd),
          and_iff_right (not_headerPastEnd_of_none hd), ← and_true (Sound cs)]
        exact bind_succeeds_iff (ih hlen) fun _ => iff_of_true ⟨_, rfl⟩ trivial
      · have ho := directive?_eq_some_iff.mp hd
        simp only
        rcases hop : openDirective kind pos r with e | w | ⟨opened, rest⟩
        · cases e
          have hp := (headerPastEnd_iff pos ho).mpr hop
          exact iff_of_false (by rintro ⟨_, h⟩; cases h) fun hs => hs _ (.here _) hp
        · have hn : ∀ body rest, ¬ Opens (c :: cs) body rest := fun body rest h => by
            obtain ⟨_, h, -⟩ := (opens_iff pos ho).mp h
            rw [hop] at h
            cases h
          have hp : ¬ HeaderPastEnd (c :: cs) := fun h => by
            rw [headerPastEnd_iff pos ho, hop] at h
            cases h
          rw [sound_cons_of_not_opens hn, and_iff_right hp, ← and_true (Sound cs), ok_bind]
          exact bind_succeeds_iff (ih hlen) fun _ => iff_of_true ⟨_, rfl⟩ trivial
        · have hopens := (opens_iff pos ho).mpr ⟨opened, hop, rfl⟩
          have hp : ¬ HeaderPastEnd (c :: cs) := fun h => by
            rw [headerPastEnd_iff pos ho, hop] at h
            cases h
          have hlt := hopens.length_lt
          rw [List.length_cons] at hlt
          have hbody : opened.body.length < fuel := by omega
          have hrest : rest.length < fuel := by omega
          rw [sound_of_opens hopens, and_iff_right hp, ok_bind]
          cases opened
          all_goals
            refine bind_succeeds_iff (ih hbody) fun _ => ?_
            rw [pure_bind, ← and_true (Sound rest)]
            exact bind_succeeds_iff (ih hrest) fun _ => iff_of_true ⟨_, rfl⟩ trivial

/-- A compilation fails exactly when it comes to a condition whose header ends after the start of
the closer that is found for it. -/
theorem compile_completes_iff (o : CompileOptions) (source : List Char) :
    (∃ c, compile o source = .ok c) ↔ ∀ cs, Reaches source cs → ¬ HeaderPastEnd cs := by
  rw [← and_true (∀ cs, _), compile]
  exact bind_succeeds_iff (compileFrom_completes_iff (Nat.lt_succ_self _))
    fun _ => iff_of_true ⟨_, rfl⟩ trivial

/-- The closer is taken to be in the string, before the header ends. -/
theorem compile_fails_at_closer_in_string :
    ¬ ∃ c, compile {} "\x7b@if(a == '\x7b/if\x7d')\x7dx\x7b/if\x7d".toList = .ok c := by
  rintro ⟨c, h⟩
  cases h

end LiveMarkup
