import LiveMarkup.Proofs.Expr.Variables
import LiveMarkup.Proofs.Template.Whole

/-!
# Names are replaced inside of tokens

Where a group of braces ends is told by its braces, quotes, backquotes and backslashes.  A text in which
words of other characters are replaced by such words (`Reworded`) has its groups at the same places
(`Reworded.scanGroup`), and to replace a name in an expression is to replace such words
(`reworded_substitute`).  So a text keeps its tokens, and what stands between them, when a name is
replaced in it (`Interpolation.substitute_keeps_tokens`).
-/

namespace LiveMarkup

open Text

variable {a a' b b' cs cs' w rest new : List Char} {depth : Nat} {quote : Option Char}

/-! ## Groups -/

/-- A group ends with a brace, and is read in the same way if nothing follows it. -/
theorem scanGroup_self (h : scanGroup depth quote cs = some (a, b)) :
    scanGroup depth quote a = some (a, []) ∧ ∃ inner, a = inner ++ ['\x7d'] := by
  induction depth, quote, cs using scanGroup.induct generalizing a b with
  | case1 => simp [scanGroup] at h
  | case2 depth q c cs ih =>
    simp only [scanGroup, Option.map_eq_some_iff] at h
    obtain ⟨⟨a', b'⟩, h', he⟩ := h
    cases he
    obtain ⟨hself, inner, rfl⟩ := ih h'
    exact ⟨by rw [scanGroup, hself]; rfl, '\\' :: c :: inner, rfl⟩
  | case3 depth q c cs hne ih =>
    rw [scanGroup.eq_3 _ _ _ _ hne, Option.map_eq_some_iff] at h
    obtain ⟨⟨a', b'⟩, h', he⟩ := h
    cases he
    obtain ⟨hself, inner, rfl⟩ := ih h'
    have hnext : ∀ d ds, c = '\\' → inner ++ ['\x7d'] = d :: ds → False := by
      intro d ds hc heq
      refine hne d (ds ++ b) hc ?_
      rw [scanGroup_eq h', heq, List.cons_append]
    exact ⟨by rw [scanGroup.eq_3 _ _ _ _ hnext, hself]; rfl, c :: inner, rfl⟩
  | case4 depth cs hd =>
    simp only [scanGroup, ↓reduceIte, hd] at h
    cases h
    exact ⟨by simp [scanGroup, hd], [], rfl⟩
  | case5 depth cs hd ih =>
    simp only [scanGroup, ↓reduceIte, hd, Option.map_eq_some_iff] at h
    obtain ⟨⟨a', b'⟩, h', he⟩ := h
    cases he
    obtain ⟨hself, inner, rfl⟩ := ih h'
    exact ⟨by simp [scanGroup, hd, hself], '\x7d' :: inner, rfl⟩
  | case6 depth cs hne ih =>
    simp only [scanGroup, hne, ↓reduceIte, Option.map_eq_some_iff] at h
    obtain ⟨⟨a', b'⟩, h', he⟩ := h
    cases he
    obtain ⟨hself, inner, rfl⟩ := ih h'
    exact ⟨by simp [scanGroup, hself], '\x7b' :: inner, rfl⟩
  | case7 depth c cs h1 h2 ih =>
    simp only [scanGroup, h1, h2, ↓reduceIte, Option.map_eq_some_iff] at h
    obtain ⟨⟨a', b'⟩, h', he⟩ := h
    cases he
    obtain ⟨hself, inner, rfl⟩ := ih h'
    exact ⟨by simp [scanGroup, h1, h2, hself], c :: inner, rfl⟩

/-- A group of braces is its inside between two braces. -/
theorem braceGroup?_eq_some (h : braceGroup? cs = some (a, b)) :
    ∃ inner, a = '\x7b' :: inner ++ ['\x7d'] ∧ cs = '\x7b' :: (inner ++ '\x7d' :: b) ∧
      scanGroup 1 none (inner ++ ['\x7d']) = some (inner ++ ['\x7d'], []) := by
  have hcs := braceGroup?_eq h
  unfold braceGroup? at h
  split at h
  · obtain ⟨⟨x, y⟩, hscan, he⟩ := Option.map_eq_some_iff.mp h
    cases he
    obtain ⟨hself, inner, rfl⟩ := scanGroup_self hscan
    exact ⟨inner, rfl, by simpa using hcs, hself⟩
  · cases h

/-! ## Words -/

/-- The characters that tell where a group ends. -/
def groupMarks : List Char := ['\x7b', '\x7d', '"', '\'', '\x60', '\\']

/-- A text in which words without marks are replaced by such words. -/
inductive Reworded : List Char → List Char → Prop where
  | nil : Reworded [] []
  | char (c : Char) {cs cs' : List Char} : Reworded cs cs' → Reworded (c :: cs) (c :: cs')
  | word {w w' cs cs' : List Char} : w ≠ [] → w' ≠ [] → (∀ c ∈ w, c ∉ groupMarks) →
    (∀ c ∈ w', c ∉ groupMarks) → Reworded cs cs' → Reworded (w ++ cs) (w' ++ cs')

namespace Reworded

theorem refl : ∀ cs : List Char, Reworded cs cs
  | [] => .nil
  | c :: cs => .char c (refl cs)

theorem append (h : Reworded a a') (h' : Reworded b b') : Reworded (a ++ b) (a' ++ b') := by
  induction h with
  | nil => exact h'
  | char c _ ih => exact .char c ih
  | word hw hw' hfree hfree' _ ih =>
    rw [List.append_assoc, List.append_assoc]
    exact .word hw hw' hfree hfree' ih

theorem eq_nil (h : Reworded [] cs) : cs = [] := by
  generalize hcs : ([] : List Char) = cs₀ at h
  cases h with
  | nil => rfl
  | char => cases hcs
  | word hw => exact absurd (List.append_eq_nil_iff.mp hcs.symm).1 hw

theorem ne_nil (h : Reworded cs cs') (hne : cs ≠ []) : cs' ≠ [] := by
  cases h with
  | nil => exact hne
  | char => exact List.cons_ne_nil _ _
  | word _ hw' => exact List.append_ne_nil_of_left_ne_nil hw' _

/-- A mark stays where it is. -/
theorem of_mark {c : Char} (hc : c ∈ groupMarks) (h : Reworded (c :: cs) cs') :
    ∃ rest, cs' = c :: rest ∧ Reworded cs rest := by
  generalize hcs : c :: cs = cs₀ at h
  cases h with
  | nil => cases hcs
  | char d h =>
    cases hcs
    exact ⟨_, rfl, h⟩
  | @word w _ _ _ hw _ hfree =>
    obtain ⟨d, w, rfl⟩ := List.exists_cons_of_ne_nil hw
    cases hcs
    exact absurd hc (hfree c List.mem_cons_self)

end Reworded

/-- Words without marks are passed over. -/
theorem scanGroup_word : ∀ {w : List Char}, (∀ c ∈ w, c ∉ groupMarks) → (∀ q ∈ quote, q ∈ groupMarks) →
    scanGroup depth quote (w ++ cs) = (scanGroup depth quote cs).map fun (a, b) => (w ++ a, b)
  | [], _, _ => by simp
  | c :: w, hw, hquote => by
    have hc : c ∉ groupMarks := hw c List.mem_cons_self
    have ih := scanGroup_word (fun d hd => hw d (List.mem_cons_of_mem c hd)) hquote (w := w)
    have hne : ∀ d ∈ groupMarks, c ≠ d := fun d hd heq => hc (heq ▸ hd)
    rw [List.cons_append]
    rcases quote with _ | q
    · have hgroup : isGroupQuote c = false := by
        simp [isGroupQuote, hne '"' (by decide), hne '\'' (by decide), hne '\x60' (by decide)]
      rw [scanGroup, if_neg (hne '\x7d' (by decide)), if_neg (hne '\x7b' (by decide)), hgroup]
      simp only [Bool.false_eq_true, if_false]
      rw [ih, Option.map_map]
      rfl
    · have hq : ¬ c = q := hne q (hquote q rfl)
      rw [scanGroup.eq_3 _ _ _ _ fun _ _ h _ => hne '\\' (by decide) h, if_neg hq, ih, Option.map_map]
      rfl

/-- A group is found in both texts, and in the second one as in the first with words replaced, or in
neither. -/
def GroupsReworded (x y : Option (List Char × List Char)) : Prop :=
  Option.Rel (fun s t => Reworded s.1 t.1 ∧ Reworded s.2 t.2) x y

theorem GroupsReworded.map {x y : Option (List Char × List Char)} {f g : List Char → List Char}
    (h : GroupsReworded x y) (hfg : ∀ a a', Reworded a a' → Reworded (f a) (g a')) :
    GroupsReworded (x.map fun (a, b) => (f a, b)) (y.map fun (a, b) => (g a, b)) := by
  cases h with
  | some h => exact .some ⟨hfg _ _ h.1, h.2⟩
  | none => exact .none

/-- Groups end at the same places when words without marks are replaced. -/
theorem Reworded.scanGroup {n : Nat} : ∀ {cs cs' : List Char} {depth : Nat} {quote : Option Char},
    cs.length ≤ n → Reworded cs cs' → (∀ q ∈ quote, q ∈ groupMarks) →
      GroupsReworded (LiveMarkup.scanGroup depth quote cs) (LiveMarkup.scanGroup depth quote cs') := by
  induction n with
  | zero =>
    intro cs cs' depth quote hlen h _
    obtain rfl := List.length_eq_zero_iff.mp (Nat.le_zero.mp hlen)
    rw [h.eq_nil]
    cases quote <;> exact .none
  | succ n ih =>
    intro cs cs' depth quote hlen h hquote
    cases h with
    | nil => cases quote <;> exact .none
    | @word w w' cs cs' hw hw' hfree hfree' h =>
      have hpos := List.length_pos_iff.mpr hw
      rw [List.length_append] at hlen
      rw [scanGroup_word hfree hquote, scanGroup_word hfree' hquote]
      exact (ih (by omega) h hquote).map fun _ _ => .word hw hw' hfree hfree'
    | @char c cs cs' h =>
      rw [List.length_cons, Nat.succ_le_succ_iff] at hlen
      rcases quote with _ | q
      · have hnext : ∀ depth' quote', (∀ q ∈ quote', q ∈ groupMarks) → GroupsReworded
            ((LiveMarkup.scanGroup depth' quote' cs).map fun (a, b) => (c :: a, b))
            ((LiveMarkup.scanGroup depth' quote' cs').map fun (a, b) => (c :: a, b)) :=
          fun _ _ hquote => (ih hlen h hquote).map fun _ _ => .char c
        rw [LiveMarkup.scanGroup, LiveMarkup.scanGroup]
        split_ifs with hclose hdepth hopen hopens
        · exact .some ⟨.refl _, h⟩
        · exact hnext _ _ hquote
        · exact hnext _ _ hquote
        · refine hnext _ _ fun q hq => ?_
          obtain rfl := Option.some.inj hq
          simp only [isGroupQuote, Bool.or_eq_true, decide_eq_true_eq] at hopens
          rcases hopens with (rfl | rfl) | rfl <;> decide
        · exact hnext _ _ hquote
      · by_cases hc : c = '\\'
        · subst hc
          -- a backslash takes a mark along, or the first character of a word
          cases h with
          | nil => exact .none
          | @char d cs cs' h =>
            rw [List.length_cons] at hlen
            rw [LiveMarkup.scanGroup, LiveMarkup.scanGroup]
            exact (ih (by omega) h hquote).map fun _ _ ha => .char _ (.char _ ha)
          | @word w w' cs cs' hw hw' hfree hfree' h =>
            rw [List.length_append] at hlen
            obtain ⟨x, w, rfl⟩ := List.exists_cons_of_ne_nil hw
            obtain ⟨y, w', rfl⟩ := List.exists_cons_of_ne_nil hw'
            rw [List.cons_append, List.cons_append, LiveMarkup.scanGroup, LiveMarkup.scanGroup,
              scanGroup_word (fun d hd => hfree d (List.mem_cons_of_mem x hd)) hquote,
              scanGroup_word (fun d hd => hfree' d (List.mem_cons_of_mem y hd)) hquote,
              Option.map_map, Option.map_map]
            exact (ih (by omega) h hquote).map fun _ _ ha => .char _ (.word hw hw' hfree hfree' ha)
        · rw [LiveMarkup.scanGroup.eq_3 _ _ _ _ fun _ _ h _ => hc h,
            LiveMarkup.scanGroup.eq_3 _ _ _ _ fun _ _ h _ => hc h]
          refine (ih hlen h fun q' hq' => ?_).map fun _ _ => .char c
          split_ifs at hq' with hcq
          · cases hq'
          · exact hquote q' hq'

/-! ## Replacing a name -/

theorem scanString_eq (q : Char) (cs : List Char) :
    cs = (scanString q cs).1 ++ (scanString q cs).2 := by
  induction cs using scanString.induct q with
  | case1 => rfl
  | case2 c cs a b hab ih =>
    rw [hab] at ih
    rw [scanString, hab]
    exact congrArg ('\\' :: c :: ·) ih
  | case3 cs hne => simp [scanString.eq_3 _ _ _ hne]
  | case4 c cs hne hc a b hab ih =>
    rw [hab] at ih
    rw [scanString.eq_3 _ _ _ hne, if_neg hc, hab]
    exact congrArg (c :: ·) ih

theorem not_mark_of_isIdentRest {c : Char} (h : isIdentRest c = true) : c ∉ groupMarks := by
  intro hc
  simp only [groupMarks, List.mem_cons, List.not_mem_nil, or_false] at hc
  rcases hc with rfl | rfl | rfl | rfl | rfl | rfl <;> cases h

/-- The beginning of a text stays, and words are replaced in the rest. -/
theorem Reworded.of_cut {p : Char → Bool} (h : Reworded (cs.dropWhile p) rest) :
    Reworded cs (cs.takeWhile p ++ rest) := by
  conv => arg 1; rw [← List.takeWhile_append_dropWhile (p := p) (l := cs)]
  exact (refl _).append h

theorem reworded_substituteFrom (name : List Char) (hne : new ≠ []) (hnew : ∀ c ∈ new, c ∉ groupMarks) :
    ∀ (fuel : Nat) (afterDot : Bool) (cs : List Char),
      Reworded cs (substituteFrom name new fuel afterDot cs)
  | 0, _, cs => .refl cs
  | _ + 1, _, [] => .nil
  | fuel + 1, afterDot, c :: cs => by
    have ih := reworded_substituteFrom name hne hnew fuel
    rw [substituteFrom]
    by_cases hquote : (decide (c = '"') || decide (c = '\'')) = true
    · have hcut := scanString_eq c cs
      rw [if_pos hquote]
      rcases hs : scanString c cs with ⟨a, rest⟩
      rw [hs] at hcut
      subst hcut
      exact .char c ((Reworded.refl a).append (ih false rest))
    rw [if_neg hquote]
    by_cases hdigit : c.isDigit = true
    · rw [if_pos hdigit]
      exact .of_cut (ih false _)
    rw [if_neg hdigit]
    by_cases hstart : isIdentStart c = true
    · rw [if_pos hstart]
      by_cases hsame : ((c :: cs).takeWhile isIdentRest = name && !afterDot) = true
      · simp only [hsame, if_true]
        conv => arg 1; rw [← List.takeWhile_append_dropWhile (p := isIdentRest) (l := c :: cs)]
        refine .word (fun hnil => ?_) hne (fun d hd => ?_) hnew (ih false _)
        · rw [List.takeWhile_cons_of_pos (isIdentRest_of_isIdentStart hstart)] at hnil
          cases hnil
        · exact not_mark_of_isIdentRest (List.all_eq_true.mp List.all_takeWhile d hd)
      · simp only [hsame]
        exact .of_cut (ih false _)
    rw [if_neg hstart]
    split_ifs
    · exact .char c (ih afterDot cs)
    · exact .char c (ih _ cs)

/-- To replace a name in an expression is to replace words without marks. -/
theorem reworded_substitute (name : List Char) (hne : new ≠ []) (hnew : ∀ c ∈ new, c ∉ groupMarks)
    (source : List Char) : Reworded source (substitute name new source) :=
  reworded_substituteFrom name hne hnew _ _ _

/-! ## Tokens -/

/-- The inside of a group of braces that is not empty. -/
def IsToken (inner : List Char) : Prop :=
  inner ≠ [] ∧ scanGroup 1 none (inner ++ ['\x7d']) = some (inner ++ ['\x7d'], [])

/-- No token starts at a character: there is no group, or an empty one. -/
def PlainHead (c : Char) (cs : List Char) : Prop :=
  ∀ group rest, braceGroup? (c :: cs) = some (group, rest) → group = ['\x7b', '\x7d']

theorem IsToken.braceGroup? (h : IsToken a) (rest : List Char) :
    LiveMarkup.braceGroup? ('\x7b' :: (a ++ '\x7d' :: rest)) = some ('\x7b' :: a ++ ['\x7d'], rest) := by
  have hscan := scanGroup_append rest h.2
  rw [List.append_assoc, List.singleton_append, List.nil_append] at hscan
  rw [LiveMarkup.braceGroup?, hscan]
  rfl

theorem plain_or_token (c : Char) (cs : List Char) : PlainHead c cs ∨
    ∃ inner rest, IsToken inner ∧ c :: cs = '\x7b' :: (inner ++ '\x7d' :: rest) := by
  rcases h : braceGroup? (c :: cs) with _ | ⟨group, rest⟩
  · exact .inl fun _ _ h' => by rw [h] at h'; cases h'
  · obtain ⟨inner, rfl, hcs, hself⟩ := braceGroup?_eq_some h
    rcases inner with _ | ⟨d, inner⟩
    · refine .inl fun group' rest' h' => ?_
      rw [h] at h'
      exact (Prod.mk.inj (Option.some.inj h')).1.symm
    · exact .inr ⟨d :: inner, rest, ⟨List.cons_ne_nil d inner, hself⟩, hcs⟩

theorem piecesFrom_eq : ∀ {fuel fuel' : Nat} {cs : List Char}, cs.length ≤ fuel → cs.length ≤ fuel' →
    piecesFrom fuel cs = piecesFrom fuel' cs
  | 0, fuel', cs, h, _ => by
    rw [List.length_eq_zero_iff.mp (Nat.le_zero.mp h)]
    cases fuel' <;> rfl
  | fuel, 0, cs, _, h => by
    rw [List.length_eq_zero_iff.mp (Nat.le_zero.mp h)]
    cases fuel <;> rfl
  | _ + 1, _ + 1, [], _, _ => rfl
  | fuel + 1, fuel' + 1, c :: cs, h, h' => by
    rw [List.length_cons, Nat.succ_le_succ_iff] at h h'
    rw [piecesFrom, piecesFrom, piecesFrom_eq h h']
    rcases hgroup : braceGroup? (c :: cs) with _ | ⟨group, rest⟩
    · rfl
    · have hlen : rest.length ≤ cs.length := by
        obtain ⟨inner, -, hcs, -⟩ := braceGroup?_eq_some hgroup
        have := congrArg List.length (List.cons.inj hcs).2
        simp only [List.length_append, List.length_cons] at this
        omega
      simp only [piecesFrom_eq (hlen.trans h) (hlen.trans h')]

/-- A piece with what is inside of a token rewritten. -/
def Piece.mapInner (f : List Char → List Char) : Piece → Piece
  | .plain c => .plain c
  | .token inner => .token (f inner)

namespace Interpolation

theorem pieces_plain {c : Char} (h : PlainHead c cs) : pieces (c :: cs) = .plain c :: pieces cs := by
  rw [pieces, List.length_cons, piecesFrom]
  rcases hgroup : braceGroup? (c :: cs) with _ | ⟨group, rest⟩
  · rfl
  · rw [h group rest hgroup]
    rfl

theorem pieces_token (h : IsToken a) (rest : List Char) :
    pieces ('\x7b' :: (a ++ '\x7d' :: rest)) = .token a :: pieces rest := by
  have hdrop : (('\x7b' :: a ++ ['\x7d']).drop 1).dropLast = a := by
    rw [List.cons_append, List.drop_succ_cons, List.drop_zero, List.dropLast_concat]
  have hrest : piecesFrom (a ++ '\x7d' :: rest).length rest = pieces rest :=
    piecesFrom_eq (by simp; omega) le_rfl
  rw [pieces, List.length_cons, piecesFrom, h.braceGroup?]
  simp only [hdrop, if_neg h.1, hrest]

/-- A text is read token by token, and character by character between tokens. -/
theorem pieces_induction {motive : List Char → Prop} (nil : motive [])
    (plain : ∀ c cs, PlainHead c cs → motive cs → motive (c :: cs))
    (token : ∀ inner rest, IsToken inner → motive rest → motive ('\x7b' :: (inner ++ '\x7d' :: rest)))
    (cs : List Char) : motive cs := by
  induction hn : cs.length using Nat.strong_induction_on generalizing cs with
  | _ n ih =>
    subst hn
    rcases cs with _ | ⟨c, cs⟩
    · exact nil
    rcases plain_or_token c cs with h | ⟨inner, rest, h, heq⟩
    · exact plain c cs h (ih _ (Nat.lt_succ_self _) cs rfl)
    · rw [heq] at ih ⊢
      exact token inner rest h (ih _ (by simp only [List.length_cons, List.length_append]; omega) rest rfl)

/-- The texts between the tokens, with the one before the first and the one after the last. -/
def between : List Piece → List (List Char)
  | [] => [[]]
  | .token _ :: ps => [] :: between ps
  | .plain c :: ps => (between ps).modifyHead (c :: ·)

theorem between_mapInner (f : List Char → List Char) : ∀ ps : List Piece,
    between (ps.map (Piece.mapInner f)) = between ps
  | [] => rfl
  | .token _ :: ps => congrArg ([] :: ·) (between_mapInner f ps)
  | .plain c :: ps => congrArg (List.modifyHead (c :: ·)) (between_mapInner f ps)

theorem expressions_of_pieces {f : List Char → List Char} {source source' : List Char}
    (h : pieces source' = (pieces source).map (Piece.mapInner f)) :
    expressions source' = (expressions source).map f := by
  rw [expressions, expressions, h, List.filterMap_map, List.map_filterMap]
  congr 1
  funext p
  cases p <;> rfl

/-- A text is made up of its tokens and what stands between them. -/
theorem render_braces (source : List Char) :
    render (fun inner => '\x7b' :: inner ++ ['\x7d']) source = source := by
  unfold render
  induction source using pieces_induction with
  | nil => rfl
  | plain c cs h ih => rw [pieces_plain h, List.flatMap_cons, ih, List.singleton_append]
  | token inner rest h ih =>
    rw [pieces_token h, List.flatMap_cons, ih]
    simp

section Substitute

variable {name source : List Char}

theorem substitute_plain {c : Char} (h : PlainHead c cs) :
    substitute name new (c :: cs) = c :: substitute name new cs := by
  rw [substitute, render, pieces_plain h]
  rfl

theorem substitute_token (h : IsToken a) (rest : List Char) :
    substitute name new ('\x7b' :: (a ++ '\x7d' :: rest)) =
      '\x7b' :: (LiveMarkup.substitute name new a ++ '\x7d' :: substitute name new rest) := by
  rw [substitute, render, pieces_token h, List.flatMap_cons]
  simp [substitute, render]

variable (hne : new ≠ []) (hnew : ∀ c ∈ new, c ∉ groupMarks)

include hne hnew

theorem reworded_substitute (source : List Char) : Reworded source (substitute name new source) := by
  induction source using pieces_induction with
  | nil => exact .nil
  | plain c cs h ih =>
    rw [substitute_plain h]
    exact .char c ih
  | token inner rest h ih =>
    rw [substitute_token h]
    exact .char _ ((LiveMarkup.reworded_substitute name hne hnew inner).append (.char _ ih))

theorem PlainHead.substitute {c : Char} (h : PlainHead c cs) :
    PlainHead c (Interpolation.substitute name new cs) := by
  intro group rest hgroup
  obtain ⟨inner, rfl, hcs, -⟩ := braceGroup?_eq_some hgroup
  obtain rfl := (List.cons.inj hcs).1
  obtain ⟨⟨a', b'⟩, hscan', he'⟩ := Option.map_eq_some_iff.mp hgroup
  have hboth : GroupsReworded (scanGroup 1 none cs)
      (scanGroup 1 none (Interpolation.substitute name new cs)) :=
    Reworded.scanGroup le_rfl (reworded_substitute hne hnew cs) nofun
  rw [hscan'] at hboth
  rcases hscan : scanGroup 1 none cs with _ | ⟨a, b⟩ <;> rw [hscan] at hboth
  · cases hboth
  · have ha := h ('\x7b' :: a) b (by rw [braceGroup?, hscan]; rfl)
    obtain rfl := (List.cons.inj ha).2
    cases hboth with
    | some hboth =>
      obtain ⟨r, hr, hnil⟩ := hboth.1.of_mark (by decide)
      rw [hnil.eq_nil] at hr
      have hinner : a' = inner ++ ['\x7d'] := (List.cons.inj (Prod.mk.inj he').1).2
      rw [List.cons_append, ← hinner, show a' = ['\x7d'] from hr]

theorem IsToken.substitute (h : IsToken a) : IsToken (LiveMarkup.substitute name new a) := by
  have hwords := LiveMarkup.reworded_substitute name hne hnew a
  refine ⟨hwords.ne_nil h.1, ?_⟩
  have hboth : GroupsReworded (scanGroup 1 none (a ++ ['\x7d']))
      (scanGroup 1 none (LiveMarkup.substitute name new a ++ ['\x7d'])) :=
    Reworded.scanGroup le_rfl (hwords.append (.refl ['\x7d'])) nofun
  rw [h.2] at hboth
  rcases hscan : scanGroup 1 none (LiveMarkup.substitute name new a ++ ['\x7d']) with _ | ⟨a', b'⟩ <;>
    rw [hscan] at hboth
  · cases hboth
  · cases hboth with
    | some hboth =>
      obtain rfl := hboth.2.eq_nil
      rw [scanGroup_eq hscan, List.append_nil]

/-- The tokens stay where they are. -/
theorem pieces_substitute (source : List Char) : pieces (substitute name new source) =
    (pieces source).map (Piece.mapInner (LiveMarkup.substitute name new)) := by
  induction source using pieces_induction with
  | nil => rfl
  | plain c cs h ih =>
    rw [substitute_plain h, pieces_plain (PlainHead.substitute hne hnew h), pieces_plain h, ih]
    rfl
  | token inner rest h ih =>
    rw [substitute_token h, pieces_token (IsToken.substitute hne hnew h), pieces_token h, ih]
    rfl

end Substitute

/-- When a name is replaced in a text, by a text that is not empty and has no marks, the expressions of
the text are those in which the name is replaced, and what stands between them stays.  The text itself
is made up of its tokens and what stands between them. -/
theorem substitute_keeps_tokens (name source : List Char) {new : List Char} (hne : new ≠ [])
    (hnew : ∀ c ∈ new, c ∉ groupMarks) :
    expressions (substitute name new source) =
      (expressions source).map (LiveMarkup.substitute name new) ∧
    between (pieces (substitute name new source)) = between (pieces source) ∧
    render (fun inner => '\x7b' :: inner ++ ['\x7d']) source = source := by
  have h : pieces (substitute name new source) = _ := pieces_substitute hne hnew source
  exact ⟨expressions_of_pieces h, by rw [h, between_mapInner], render_braces source⟩

/-- A token with a brace in a string, a brace that is not closed, and a name after a backslash. -/
theorem substitute_keeps_tokens_quoted :
    let source := "a \x7bx + '\x7d' + \x60\\x's \x7d\x60\x7d \x7b \x7bx.x\x7d \x7b\x7dx".toList
    let new := "xs[0]".toList
    (new ≠ [] ∧ ∀ c ∈ new, c ∉ groupMarks) ∧
    expressions (substitute ['x'] new source) =
      ["xs[0] + '\x7d' + \x60\\xs[0]'s \x7d\x60".toList, "xs[0].x".toList] ∧
    between (pieces (substitute ['x'] new source)) = ["a ".toList, " \x7b ".toList, " \x7b\x7dx".toList] := by
  intro source new
  have hne : new ≠ [] := by decide
  have hnew : ∀ c ∈ new, c ∉ groupMarks := by simp [new, groupMarks]
  obtain ⟨hexpressions, hbetween, -⟩ := substitute_keeps_tokens ['x'] source hne hnew
  exact ⟨⟨hne, hnew⟩, hexpressions.trans (by decide +kernel), hbetween.trans (by decide +kernel)⟩

end Interpolation

end LiveMarkup
