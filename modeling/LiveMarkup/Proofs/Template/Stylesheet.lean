import LiveMarkup.Proofs.Markup.Reading
import LiveMarkup.Template.ScopedClass

/-!
# Stylesheets in a scope

A stylesheet is a tree of statements and rules (`Stylesheet`).  In a scope the classes of its selectors
have other names and all else is the same (`Stylesheet.inScope`).  But what stands before an opening
brace is renamed as a whole, with the statements before the rule.  So the classes of the selectors are
renamed and all else stays if and only if no statement that a rule follows, and no text of a selector
beside its classes, has a dot before a letter, and the names of classes are plain
(`scopeStylesheet_eq_iff`).
-/

namespace LiveMarkup

open Text

variable {scope name cs t u v w x y : List Char} {c d : Char}

/-! ## Stylesheets -/

/-- A selector: classes, each with the text before it, and the text after the last one. -/
inductive Selector where
  | text (text : List Char)
  | cls (before name : List Char) (rest : Selector)
  deriving DecidableEq

/-- The statements and rules of a block, in order. -/
inductive Stylesheet where
  | nil
  /-- A declaration, or a statement such as an import. -/
  | statement (text : List Char) (rest : Stylesheet)
  | rule (selector : Selector) (body rest : Stylesheet)
  deriving DecidableEq

namespace Selector

/-- The text of a selector. -/
def source : Selector → List Char
  | text t => t
  | cls before name rest => before ++ '.' :: (name ++ rest.source)

/-- A selector with its classes renamed. -/
def inScope (scope : List Char) : Selector → Selector
  | text t => text t
  | cls before name rest => cls before (scopedName name scope) (rest.inScope scope)

/-- No brace stands in a selector, and its classes have names that end where they end. -/
def WellFormed : Selector → Prop
  | text t => '\x7b' ∉ t ∧ '\x7d' ∉ t
  | cls before name rest => ('\x7b' ∉ before ∧ '\x7d' ∉ before) ∧ (name ≠ [] ∧ '\x7b' ∉ name ∧ '\x7d' ∉ name) ∧
      rest.source.head?.all (!isClassRest ·) = true ∧ rest.WellFormed

instance decidableWellFormed : DecidablePred WellFormed
  | text _ => inferInstanceAs (Decidable (_ ∧ _))
  | cls _ _ rest =>
    have := decidableWellFormed rest
    inferInstanceAs (Decidable ((_ ∧ _) ∧ (_ ∧ _ ∧ _) ∧ _ ∧ rest.WellFormed))

end Selector

namespace Stylesheet

/-- The text of a stylesheet. -/
def source : Stylesheet → List Char
  | nil => []
  | statement text rest => text ++ rest.source
  | rule selector body rest =>
    selector.source ++ '\x7b' :: (body.source ++ '\x7d' :: rest.source)

/-- A stylesheet with the classes of its selectors renamed. -/
def inScope (scope : List Char) : Stylesheet → Stylesheet
  | nil => nil
  | statement text rest => statement text (rest.inScope scope)
  | rule selector body rest =>
    rule (selector.inScope scope) (body.inScope scope) (rest.inScope scope)

/-- No brace stands in a statement, and a statement ends with a semicolon, unless it is the last one of
its block. -/
def WellFormed : Stylesheet → Prop
  | nil => True
  | statement text rest => ('\x7b' ∉ text ∧ '\x7d' ∉ text) ∧
      (rest = nil ∨ text.getLast? = some ';') ∧ rest.WellFormed
  | rule selector body rest => selector.WellFormed ∧ body.WellFormed ∧ rest.WellFormed

instance decidableWellFormed : DecidablePred WellFormed
  | nil => isTrue trivial
  | statement _ rest =>
    have := decidableWellFormed rest
    inferInstanceAs (Decidable ((_ ∧ _) ∧ (_ ∨ _) ∧ rest.WellFormed))
  | rule selector body rest =>
    have := decidableWellFormed body
    have := decidableWellFormed rest
    inferInstanceAs (Decidable (selector.WellFormed ∧ body.WellFormed ∧ rest.WellFormed))

/-- Whether there is a rule in a block. -/
def hasRule : Stylesheet → Bool
  | nil => false
  | statement _ rest => rest.hasRule
  | rule _ _ _ => true

end Stylesheet

/-! ## Where nothing else looks like a class -/

/-- No dot stands before a letter. -/
def Classless (cs : List Char) : Prop :=
  cs.IsChain fun a b => a = '.' → b.isAlpha = false

instance (cs : List Char) : Decidable (Classless cs) :=
  inferInstanceAs (Decidable (List.IsChain _ cs))

/-- The name of a class that is a letter, with letters, digits, underscores and hyphens after it. -/
def IsPlainClass (name : List Char) : Prop :=
  name.head?.any Char.isAlpha = true ∧ name.all isClassRest = true

instance (name : List Char) : Decidable (IsPlainClass name) :=
  inferInstanceAs (Decidable (_ ∧ _))

/-- Nothing in a selector looks like a class but its classes, and these have plain names. -/
def Selector.Clear : Selector → Prop
  | text t => Classless t
  | cls before name rest => Classless before ∧ IsPlainClass name ∧ rest.Clear

/-- Nothing before the opening brace of a rule looks like a class but the classes of the rule. -/
def Stylesheet.Clear : Stylesheet → Prop
  | nil => True
  | statement text rest => (rest.hasRule = true → Classless text) ∧ rest.Clear
  | rule selector body rest => selector.Clear ∧ body.Clear ∧ rest.Clear

instance Selector.decidableClear : DecidablePred Selector.Clear
  | .text t => inferInstanceAs (Decidable (Classless t))
  | .cls before name rest =>
    have := decidableClear rest
    inferInstanceAs (Decidable (Classless before ∧ IsPlainClass name ∧ rest.Clear))

instance Stylesheet.decidableClear : DecidablePred Stylesheet.Clear
  | .nil => isTrue trivial
  | .statement text rest =>
    have := decidableClear rest
    inferInstanceAs (Decidable ((rest.hasRule = true → Classless text) ∧ rest.Clear))
  | .rule selector body rest =>
    have := decidableClear body
    have := decidableClear rest
    inferInstanceAs (Decidable (selector.Clear ∧ body.Clear ∧ rest.Clear))

theorem classless_nil : Classless [] := .nil

theorem classless_append (h : ∀ a ∈ t.getLast?, ∀ b ∈ u.head?, a = '.' → b.isAlpha = false) :
    Classless (t ++ u) ↔ Classless t ∧ Classless u := by
  rw [Classless, List.isChain_append, ← and_assoc]
  exact and_iff_left h

/-! ## Selectors -/

/-- Either a class begins at a character, or none does. -/
theorem class_or_not (c : Char) (cs : List Char) :
    (∃ d ds, c :: cs = '.' :: d :: ds ∧ d.isAlpha = true) ∨ ∀ d ∈ cs.head?, c = '.' → d.isAlpha = false := by
  rcases cs with _ | ⟨d, ds⟩
  · exact .inr nofun
  · by_cases h : c = '.' ∧ d.isAlpha = true
    · exact .inl ⟨d, ds, by rw [h.1], h.2⟩
    · refine .inr fun e he hc => ?_
      obtain rfl := Option.some.inj he
      simpa [hc] using h

theorem scopeSelectorFrom_class (hd : d.isAlpha = true) (fuel : Nat) (cs : List Char) :
    scopeSelectorFrom scope (fuel + 1) ('.' :: d :: cs) =
      '.' :: scopedName (d :: cs.takeWhile isClassRest) scope ++
        scopeSelectorFrom scope fuel (cs.dropWhile isClassRest) := by
  rw [scopeSelectorFrom, if_pos hd]

theorem scopeSelectorFrom_char (h : ∀ d ∈ cs.head?, c = '.' → d.isAlpha = false) (fuel : Nat) :
    scopeSelectorFrom scope (fuel + 1) (c :: cs) = c :: scopeSelectorFrom scope fuel cs := by
  by_cases hc : c = '.'
  · subst hc
    rcases cs with _ | ⟨d, ds⟩
    · rfl
    · rw [scopeSelectorFrom, if_neg (by simp [h d rfl rfl])]
  · rw [scopeSelectorFrom]
    intro d ds hdot
    exact absurd hdot hc

theorem scopeSelectorFrom_eq : ∀ {fuel : Nat} {cs : List Char}, cs.length ≤ fuel →
    scopeSelectorFrom scope fuel cs = scopeSelector scope cs
  | 0, cs, h => by
    obtain rfl := List.length_eq_zero_iff.mp (Nat.le_zero.mp h)
    rfl
  | fuel + 1, [], _ => rfl
  | fuel + 1, c :: cs, h => by
    have hcs : cs.length ≤ fuel := Nat.le_of_succ_le_succ h
    rcases class_or_not c cs with ⟨d, ds, hclass, hd⟩ | hchar
    · obtain ⟨rfl, rfl⟩ := List.cons.inj hclass
      have hlen := (List.dropWhile_sublist isClassRest (l := ds)).length_le
      have hrest : (ds.dropWhile isClassRest).length ≤ fuel ∧
          (ds.dropWhile isClassRest).length ≤ (d :: ds).length := by
        rw [List.length_cons] at hcs ⊢
        omega
      rw [scopeSelector, List.length_cons, scopeSelectorFrom_class hd, scopeSelectorFrom_class hd,
        scopeSelectorFrom_eq hrest.1, scopeSelectorFrom_eq hrest.2]
    · rw [scopeSelector, List.length_cons, scopeSelectorFrom_char hchar, scopeSelectorFrom_char hchar,
        scopeSelectorFrom_eq hcs, scopeSelectorFrom_eq le_rfl]

theorem scopeSelector_class (hd : d.isAlpha = true) (cs : List Char) :
    scopeSelector scope ('.' :: d :: cs) = '.' :: scopedName (d :: cs.takeWhile isClassRest) scope ++
      scopeSelector scope (cs.dropWhile isClassRest) := by
  have hlen := (List.dropWhile_sublist isClassRest (l := cs)).length_le
  rw [scopeSelector, List.length_cons, scopeSelectorFrom_class hd, scopeSelectorFrom_eq]
  rw [List.length_cons]
  omega

theorem scopeSelector_char (h : ∀ d ∈ cs.head?, c = '.' → d.isAlpha = false) :
    scopeSelector scope (c :: cs) = c :: scopeSelector scope cs := by
  rw [scopeSelector, List.length_cons, scopeSelectorFrom_char h, scopeSelector]

/-- The first character stays. -/
theorem exists_scopeSelector_cons (c : Char) (cs : List Char) :
    ∃ x, scopeSelector scope (c :: cs) = c :: x := by
  rcases class_or_not c cs with ⟨d, ds, hclass, hd⟩ | hchar
  · obtain ⟨rfl, rfl⟩ := List.cons.inj hclass
    rw [scopeSelector_class hd]
    exact ⟨_, rfl⟩
  · exact ⟨_, scopeSelector_char hchar⟩

/-- A text stays, and then what follows is as it is meant, if nothing in it looks like a class. -/
theorem scopeSelector_text_iff (h : ∀ a ∈ t.getLast?, ∀ b ∈ v.head?, a = '.' → b.isAlpha = false) :
    scopeSelector scope (t ++ v) ++ w = t ++ y ↔ Classless t ∧ scopeSelector scope v ++ w = y := by
  induction t with
  | nil => simp [Classless]
  | cons c t ih =>
    have hchain : Classless (c :: t) ↔ (∀ d ∈ t.head?, c = '.' → d.isAlpha = false) ∧ Classless t :=
      List.isChain_cons
    have htail : ∀ a ∈ t.getLast?, ∀ b ∈ v.head?, a = '.' → b.isAlpha = false := fun a ha =>
      h a (by rw [List.getLast?_cons, Option.mem_def.mp ha]; rfl)
    rw [List.cons_append, List.cons_append]
    rcases class_or_not c (t ++ v) with ⟨d, ds, hclass, hd⟩ | hchar
    · -- a class that begins in the text goes on in it
      obtain ⟨rfl, hds⟩ := List.cons.inj hclass
      rcases t with _ | ⟨e, t⟩
      · rw [List.nil_append] at hds
        have := h '.' rfl d (by rw [hds]; rfl) rfl
        rw [hd] at this
        cases this
      obtain ⟨rfl, rfl⟩ := List.cons.inj hds
      have hne : '_' ≠ e := by
        rintro rfl
        cases hd
      have hlook : ¬ Classless ('.' :: e :: t) := fun h => by
        have := (hchain.mp h).1 e rfl rfl
        rw [hd] at this
        cases this
      rw [List.cons_append, scopeSelector_class hd]
      simp [scopedName, hne, hlook]
    · have hhead : ∀ d ∈ t.head?, c = '.' → d.isAlpha = false := fun d hd =>
        hchar d (by rw [List.head?_append, Option.mem_def.mp hd]; rfl)
      rw [scopeSelector_char hchar, List.cons_append, List.cons.injEq, ih htail, hchain,
        and_iff_right rfl, and_iff_right hhead]

/-- No name is renamed by an underscore before it while it stays. -/
theorem scopeSelector_ne (hv : v.head?.all (!isClassRest ·) = true) (hw : w.head? = some '\x7b') :
    scopeSelector scope (name ++ v) ++ w ≠ '_' :: (name ++ x) := by
  induction name with
  | nil =>
    rcases v with _ | ⟨d, v⟩
    · intro h
      have hhead : w.head? = some '_' := congrArg List.head? h
      rw [hw] at hhead
      cases hhead
    · obtain ⟨z, hz⟩ := @exists_scopeSelector_cons scope d v
      intro h
      rw [List.nil_append, hz] at h
      obtain ⟨rfl, -⟩ := List.cons.inj h
      cases hv
  | cons e name ih =>
    intro h
    obtain ⟨z, hz⟩ := @exists_scopeSelector_cons scope e (name ++ v)
    obtain ⟨rfl, -⟩ : e = '_' ∧ _ := List.cons.inj (hz ▸ h)
    rw [List.cons_append, scopeSelector_char (fun _ _ he => absurd he (by decide))] at h
    exact ih (List.cons.inj h).2

/-- A class is renamed as it is meant, and then what follows is as it is meant, if its name is plain. -/
theorem scopeSelector_class_iff (hne : name ≠ []) (hv : v.head?.all (!isClassRest ·) = true)
    (hw : w.head? = some '\x7b') :
    scopeSelector scope ('.' :: (name ++ v)) ++ w = '.' :: (scopedName name scope ++ y) ↔
      IsPlainClass name ∧ scopeSelector scope v ++ w = y := by
  obtain ⟨c, n, rfl⟩ := List.exists_cons_of_ne_nil hne
  by_cases hc : c.isAlpha = true
  · rw [List.cons_append, scopeSelector_class hc]
    by_cases hn : ∀ d ∈ n, isClassRest d = true
    · obtain ⟨htake, hdrop⟩ := takeWhile_stop hn hv
      have hplain : IsPlainClass (c :: n) :=
        ⟨hc, List.all_eq_true.mpr (List.forall_mem_cons.mpr ⟨by simp [isClassRest, Char.isAlphanum, hc], hn⟩)⟩
      rw [htake, hdrop, and_iff_right hplain]
      simp
    · -- the name is taken to end before its first character that is not plain
      have hplain : ¬ IsPlainClass (c :: n) := fun h =>
        hn (List.forall_mem_cons.mp (List.all_eq_true.mp h.2)).2
      obtain ⟨d, q, hd⟩ := List.exists_cons_of_ne_nil (l := n.dropWhile isClassRest)
        (by simpa [List.dropWhile_eq_nil_iff] using hn)
      have hdrest : isClassRest d = false := by
        have := List.head_dropWhile_not isClassRest (l := n) (by rw [hd]; simp)
        simpa [hd] using this
      have hsplit : n = n.takeWhile isClassRest ++ d :: q := by
        rw [← hd, List.takeWhile_append_dropWhile]
      obtain ⟨htake, -⟩ := takeWhile_stop (p := isClassRest) (a := n.takeWhile isClassRest)
        (u := d :: (q ++ v)) (fun e he => List.mem_takeWhile_imp he) (by simp [hdrest])
      rw [← List.cons_append, ← List.append_assoc, ← hsplit] at htake
      refine iff_of_false (fun h => ?_) fun h => hplain h.1
      rw [htake] at h
      conv at h =>
        rhs
        rw [hsplit]
      simp only [scopedName, List.cons_append, List.append_assoc, List.cons.injEq, true_and,
        List.append_right_inj] at h
      rw [← h.1] at hdrest
      cases hdrest
  · have hplain : ¬ IsPlainClass (c :: n) := fun h => hc h.1
    have hchar : scopeSelector scope ('.' :: (c :: n ++ v)) = '.' :: scopeSelector scope (c :: n ++ v) :=
      scopeSelector_char fun d hd _ => by
        obtain rfl : c = d := Option.some.inj hd
        simpa using hc
    rw [hchar]
    refine iff_of_false (fun h => ?_) fun h => hplain h.1
    have hname : scopeSelector scope (c :: n ++ v) ++ w = '_' :: (c :: n ++ ('_' :: scope ++ y)) := by
      simpa [scopedName] using (List.cons.inj h).2
    exact scopeSelector_ne hv hw hname

/-- A selector is renamed as it is meant, and then what follows is as it is meant, if it is clear. -/
theorem scopeSelector_source_iff (hw : w.head? = some '\x7b') : ∀ {s : Selector}, s.WellFormed →
    (scopeSelector scope s.source ++ w = (s.inScope scope).source ++ y ↔ s.Clear ∧ w = y)
  | .text t, _ => by
    rw [← List.append_nil (Selector.text t).source]
    exact scopeSelector_text_iff nofun
  | .cls before name rest, ⟨_, ⟨hne, _⟩, hend, hrest⟩ => by
    have hdot : ∀ a ∈ before.getLast?, ∀ b ∈ ('.' :: (name ++ rest.source)).head?, a = '.' → b.isAlpha = false :=
      fun _ _ b hb _ => by
        obtain rfl : '.' = b := Option.some.inj hb
        rfl
    rw [Selector.source, Selector.inScope, Selector.source, List.append_assoc, List.cons_append,
      List.append_assoc, scopeSelector_text_iff hdot, scopeSelector_class_iff hne hend hw,
      scopeSelector_source_iff hw hrest, Selector.Clear, and_assoc, and_assoc]

/-- No class goes on from a text that is empty or ends with a semicolon. -/
theorem no_class_after (ht : t = [] ∨ t.getLast? = some ';') :
    ∀ a ∈ t.getLast?, ∀ b ∈ u.head?, a = '.' → b.isAlpha = false := by
  rcases ht with rfl | ht
  · exact nofun
  · intro a ha b _ hdot
    rw [ht] at ha
    obtain rfl : ';' = a := Option.some.inj ha
    cases hdot

/-! ## From brace to brace -/

theorem Selector.brace_not_mem : ∀ {s : Selector}, s.WellFormed → '\x7b' ∉ s.source ∧ '\x7d' ∉ s.source
  | .text _, h => h
  | .cls _ _ rest, ⟨hbefore, hname, _, hrest⟩ => by
    have := rest.brace_not_mem hrest
    simp only [Selector.source, List.mem_append, List.mem_cons, not_or]
    exact ⟨⟨hbefore.1, by decide, hname.2.1, this.1⟩, ⟨hbefore.2, by decide, hname.2.2, this.2⟩⟩

/-- What has no brace in it is kept for the next brace. -/
theorem scopeStylesheetFrom_append (h : '\x7b' ∉ t ∧ '\x7d' ∉ t) (segment u : List Char) :
    scopeStylesheetFrom scope segment (t ++ u) = scopeStylesheetFrom scope (t.reverse ++ segment) u := by
  induction t generalizing segment with
  | nil => rfl
  | cons c t ih =>
    simp only [List.mem_cons, not_or] at h
    rw [List.cons_append, scopeStylesheetFrom, if_neg (Ne.symm h.1.1), if_neg (Ne.symm h.2.1),
      ih ⟨h.1.2, h.2.2⟩, List.reverse_cons, List.append_assoc, List.singleton_append]

theorem scopeStylesheetFrom_open (segment u : List Char) :
    scopeStylesheetFrom scope segment ('\x7b' :: u) =
      scopeSelector scope segment.reverse ++ '\x7b' :: scopeStylesheetFrom scope [] u := by
  rw [scopeStylesheetFrom, if_pos rfl]

/-- What stands before a closing brace, or at the end, stays. -/
theorem scopeStylesheetFrom_block_end (hu : u.head?.all (· = '\x7d') = true) (segment : List Char) :
    scopeStylesheetFrom scope segment u = segment.reverse ++ scopeStylesheetFrom scope [] u := by
  rcases u with _ | ⟨c, u⟩
  · exact (List.append_nil _).symm
  · obtain rfl : c = '\x7d' := by simpa using hu
    rfl

/-- What a block becomes.  `t` is the text of the statements before it, which no brace has ended. -/
theorem scopeStylesheetFrom_source_iff : ∀ {s : Stylesheet} {t u x : List Char}, s.WellFormed →
    (s.hasRule = true → t = [] ∨ t.getLast? = some ';') → u.head?.all (· = '\x7d') = true →
    (scopeStylesheetFrom scope t.reverse (s.source ++ u) = t ++ ((s.inScope scope).source ++ x) ↔
      ((s.hasRule = true → Classless t) ∧ s.Clear) ∧ scopeStylesheetFrom scope [] u = x)
  | .nil, t, u, x, _, _, hu => by
    rw [Stylesheet.source, Stylesheet.inScope, Stylesheet.source, List.nil_append, List.nil_append,
      scopeStylesheetFrom_block_end hu, List.reverse_reverse, List.append_right_inj, and_iff_right]
    exact ⟨nofun, trivial⟩
  | .statement text rest, t, u, x, ⟨hbrace, hlast, hrest⟩, ht, hu => by
    have hnext : rest.hasRule = true → t ++ text = [] ∨ (t ++ text).getLast? = some ';' := fun hrule =>
      hlast.elim (fun h => by rw [h] at hrule; cases hrule)
        fun h => .inr (by rw [List.getLast?_append, h]; rfl)
    have hclass : (rest.hasRule = true → Classless (t ++ text)) ↔
        (rest.hasRule = true → Classless t) ∧ (rest.hasRule = true → Classless text) := by
      rw [← imp_and]
      exact imp_congr_right fun hrule => classless_append (no_class_after (ht hrule))
    have ih := scopeStylesheetFrom_source_iff (x := x) hrest hnext hu
    rw [List.reverse_append, hclass, List.append_assoc t] at ih
    rw [Stylesheet.source, Stylesheet.inScope, Stylesheet.source, List.append_assoc, List.append_assoc,
      scopeStylesheetFrom_append hbrace, ih, Stylesheet.hasRule, Stylesheet.Clear, and_assoc (a := _ → _)]
  | .rule selector body rest, t, u, x, ⟨hselector, hbody, hrest⟩, ht, hu => by
    have hbefore : ∀ a ∈ t.getLast?, ∀ b ∈ selector.source.head?, a = '.' → b.isAlpha = false :=
      no_class_after (ht rfl)
    have ihRest := scopeStylesheetFrom_source_iff (t := []) (x := x) hrest (fun _ => .inl rfl) hu
    have ihBody := scopeStylesheetFrom_source_iff (t := []) (u := '\x7d' :: (rest.source ++ u))
      (x := '\x7d' :: ((rest.inScope scope).source ++ x)) hbody (fun _ => .inl rfl) rfl
    have hclose : scopeStylesheetFrom scope [] ('\x7d' :: (rest.source ++ u)) =
        '\x7d' :: scopeStylesheetFrom scope [] (rest.source ++ u) := rfl
    simp only [List.reverse_nil, List.nil_append] at ihRest ihBody
    rw [hclose, List.cons.injEq, and_iff_right rfl, ihRest] at ihBody
    simp only [Stylesheet.source, Stylesheet.inScope, List.append_assoc, List.cons_append]
    rw [scopeStylesheetFrom_append (selector.brace_not_mem hselector), ← List.reverse_append,
      scopeStylesheetFrom_open, List.reverse_reverse, scopeSelector_text_iff hbefore,
      scopeSelector_source_iff rfl hselector, List.cons.injEq, and_iff_right rfl, ihBody]
    simp only [Stylesheet.hasRule, Stylesheet.Clear, classless_nil, forall_const, true_and,
      implies_true, and_assoc]

/-- The classes of the selectors are renamed and all else stays if and only if nothing else before an
opening brace looks like a class. -/
theorem scopeStylesheet_eq_iff {s : Stylesheet} (h : s.WellFormed) (scope : List Char) :
    scopeStylesheet scope s.source = (s.inScope scope).source ↔ s.Clear := by
  have hrun : scopeStylesheetFrom scope [] (s.source ++ []) = (s.inScope scope).source ++ [] ↔ _ :=
    scopeStylesheetFrom_source_iff (t := []) h (fun _ => .inl rfl) rfl
  simpa [scopeStylesheet, scopeStylesheetFrom, classless_nil] using hrun

/-- A rule with declarations and a rule in it, and a rule of the page's width after it. -/
def cardStylesheet : Stylesheet :=
  .rule (.cls [] "card".toList (.text " ".toList))
    (.statement " margin: .5em;".toList
      (.rule (.cls " ".toList "title".toList (.text ":hover ".toList))
        (.statement " color: red; ".toList .nil)
        (.statement " background: url(a.png) ".toList .nil)))
    (.rule (.text " @media (width > 1px) ".toList)
      (.rule (.cls " p > ".toList "card".toList (.cls ", ".toList "box-2".toList (.text " ".toList)))
        (.statement " width: 1.5em ".toList .nil) (.statement " ".toList .nil))
      .nil)

theorem scopeStylesheet_eq_iff_cardStylesheet :
    cardStylesheet.WellFormed ∧ cardStylesheet.Clear ∧
      scopeStylesheet "x1".toList cardStylesheet.source = (cardStylesheet.inScope "x1".toList).source ∧
      String.ofList (cardStylesheet.inScope "x1".toList).source =
        "._card_x1 \x7b margin: .5em; ._title_x1:hover \x7b color: red; \x7d background: url(a.png) \x7d" ++
          " @media (width > 1px) \x7b p > ._card_x1, ._box-2_x1 \x7b width: 1.5em \x7d \x7d" := by
  have h : cardStylesheet.WellFormed := by decide +kernel
  have hclear : cardStylesheet.Clear := by decide +kernel
  exact ⟨h, hclear, (scopeStylesheet_eq_iff h _).mpr hclear, by decide +kernel⟩

/-- A rule with a rule in it, and a declaration with a dot before that. -/
def imageStylesheet : Stylesheet :=
  .rule (.cls [] "card".toList (.text " ".toList))
    (.statement " background: url(a.png);".toList
      (.rule (.cls " ".toList "title".toList (.text " ".toList))
        (.statement " color: red ".toList .nil) (.statement " ".toList .nil)))
    .nil

/-- The declaration is changed. -/
theorem scopeStylesheet_renames_declaration :
    imageStylesheet.WellFormed ∧
      String.ofList imageStylesheet.source =
        ".card \x7b background: url(a.png); .title \x7b color: red \x7d \x7d" ∧
      String.ofList (imageStylesheet.inScope "x1".toList).source =
        "._card_x1 \x7b background: url(a.png); ._title_x1 \x7b color: red \x7d \x7d" ∧
      String.ofList (scopeStylesheet "x1".toList imageStylesheet.source) =
        "._card_x1 \x7b background: url(a._png_x1); ._title_x1 \x7b color: red \x7d \x7d" := by
  exact ⟨by decide +kernel, by decide +kernel, by decide +kernel, by decide +kernel⟩

end LiveMarkup
