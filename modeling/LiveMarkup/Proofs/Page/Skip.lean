import Mathlib
import LiveMarkup.Page.View
import LiveMarkup.Proofs.Expr.Variables
import LiveMarkup.Proofs.Text.Trim

/-!
# What an update may pass over

An update passes over what it does not concern: groups, loops, texts and attributes of which no
name that was found in them has changed.  What is passed over looks the same as before if all the
names that are looked up in it are among those that are found (`Item.outcome_eq_of_not_meets`).
Names with a dollar sign and those kept for internal use are never found, and then the page is out
of date (`skipping_sound`).
-/

namespace LiveMarkup

open Text

/-- Something that a page shows from its state. -/
inductive Item where
  | group (g : ConditionGroup)
  | loop (l : LoopDefinition)
  | text (source : List Char)
  | binding (source : List Char)

/-- What is shown of an item. -/
inductive Outcome where
  | block (b : Option Block)
  | array (v : Value)
  | text (cs : List Char)
  | value (v : Value)

namespace Item

/-- The expressions of an item. -/
def expressions : Item → List (List Char)
  | group g => g.conditions.map String.toList
  | loop l => [l.array.toList]
  | text source => Interpolation.expressions source
  | binding source => [source]

/-- Whether an update concerns an item; if not it is passed over. -/
def meets (u : Update) : Item → Bool
  | group g => u.meets g.vars
  | loop l => u.meets l.vars
  | text source => u.meetsText source
  | binding source => u.meets (expressionVars source)

/-- What an item looks like in a scope. -/
def outcome (o : ViewOptions) (s : Scope) : Item → Outcome
  | group g => .block (View.chosenBlock o s g)
  | loop l => .array (valueOf o.namesItems s l.array.toList)
  | text source => .text (Interpolation.render (shownValue o.namesItems s) source)
  | binding source => .value (valueOf o.namesItems s source)

/-- All names that are looked up in an item are found in it. -/
def Tracked (o : ViewOptions) (s : Scope) (it : Item) : Prop :=
  ∀ c ∈ it.expressions, ∀ x ∈ lookups o.namesItems s c, x ∈ expressionVars c

end Item

/-- Two scopes differ in the meaning of the given names at most. -/
def AgreeOff (names : List String) (s s' : Scope) : Prop :=
  ∀ x, x ∉ names → s.find? x = s'.find? x

/-- An item looks the same whenever it is passed over. -/
def SkipSound (o : ViewOptions) (it : Item) : Prop :=
  ∀ (names : List String) (s s' : Scope), AgreeOff names s s' →
    it.meets (.keys names) = false → it.outcome o s = it.outcome o s'

variable {o : ViewOptions} {s s' : Scope} {names : List String}

theorem Update.meets_eq_false_iff {vars : List String} :
    (Update.keys names).meets vars = false ↔ ∀ x ∈ vars, x ∉ names := by
  simp [Update.meets]

/-- An item is passed over if no name that is found in its expressions has changed. -/
theorem Item.meets_eq_false_iff : ∀ {it : Item}, it.meets (.keys names) = false ↔
    ∀ c ∈ it.expressions, ∀ x ∈ expressionVars c, x ∉ names
  | group g => by
    simp only [meets, Update.meets_eq_false_iff, ConditionGroup.vars, mem_distinct,
      List.mem_flatMap, expressions, List.forall_mem_map]
    exact ⟨fun h c hc x hx => h x ⟨c, hc, hx⟩, fun h x ⟨c, hc, hx⟩ => h c hc x hx⟩
  | loop l => by
    simp only [meets, Update.meets_eq_false_iff, LoopDefinition.vars, expressions,
      List.forall_mem_singleton]
  | text source => by
    simp only [meets, Update.meetsText, List.any_eq_false, Bool.not_eq_true,
      Update.meets_eq_false_iff, expressions]
  | binding source => by
    simp only [meets, Update.meets_eq_false_iff, expressions, List.forall_mem_singleton]

theorem chosenBlock_congr {g : ConditionGroup}
    (h : ∀ c ∈ g.conditions, valueOf o.namesItems s c.toList = valueOf o.namesItems s' c.toList) :
    View.chosenBlock o s g = View.chosenBlock o s' g := by
  have hvalue : ∀ b ∈ g.blocks, ∀ c, b.condition = some c →
      valueOf o.namesItems s c.toList = valueOf o.namesItems s' c.toList := fun b hb c hc =>
    h c (List.mem_filterMap.mpr ⟨b, hb, hc⟩)
  unfold View.chosenBlock
  refine List.find?_congr fun b hb => ?_
  rcases hc : b.condition with _ | c
  · simp only [Option.any_none]
  · simp only [Option.any_some, hvalue b hb c hc]

theorem render_congr {f f' : List Char → List Char} {source : List Char}
    (h : ∀ c ∈ Interpolation.expressions source, f c = f' c) :
    Interpolation.render f source = Interpolation.render f' source := by
  unfold Interpolation.render
  refine List.flatMap_congr fun p hp => ?_
  rcases p with c | inner
  · rfl
  · exact h inner (List.mem_filterMap.mpr ⟨_, hp, rfl⟩)

theorem Item.outcome_congr : ∀ {it : Item},
    (∀ c ∈ it.expressions, valueOf o.namesItems s c = valueOf o.namesItems s' c) →
      it.outcome o s = it.outcome o s'
  | group g, h => congrArg Outcome.block (chosenBlock_congr fun c hc => h _ (List.mem_map_of_mem hc))
  | loop l, h => congrArg Outcome.array (h _ (List.mem_singleton_self _))
  | text source, h => by
    refine congrArg Outcome.text (render_congr fun c hc => ?_)
    unfold shownValue
    rw [h c hc]
  | binding source, h => congrArg Outcome.value (h _ (List.mem_singleton_self _))

theorem Item.outcome_eq_of_not_meets {it : Item} (hagree : AgreeOff names s s')
    (h : it.meets (.keys names) = false) (ht : it.Tracked o s) : it.outcome o s = it.outcome o s' :=
  outcome_congr fun c hc => valueOf_congr fun x hx =>
    hagree x (meets_eq_false_iff.mp h c hc x (ht c hc x hx))

/-! ## Single names -/

section

variable (size fuel start stop : Nat) (x : String)

theorem parseUnary_ident : parseUnary size (fuel + 3) [⟨.ident x, start, stop⟩] =
    .ok (.ident x ⟨start, stop⟩, stop, []) := by
  simp [parseUnary, parseAccess, parseOperand, parseAccesses]

/-- A name alone is read in the same way at each of the levels above the tightest. -/
theorem parseLevel_ident : ∀ above, above ≤ BinaryOp.levels →
    parseLevel size (fuel + 4 + above) (BinaryOp.levels - above) [⟨.ident x, start, stop⟩] =
      .ok (.ident x ⟨start, stop⟩, stop, [])
  | 0, _ => by
    rw [parseLevel, if_neg (by simp)]
    exact parseUnary_ident ..
  | above + 1, h => by
    have hlevel : BinaryOp.levels - (above + 1) + 1 = BinaryOp.levels - above := by omega
    rw [← Nat.add_assoc, parseLevel, if_pos (by omega), hlevel, parseLevel_ident above (by omega),
      show fuel + 4 + above = fuel + 3 + above + 1 by omega]
    simp [parseOperators, operatorAt?]

theorem parseTokens_ident :
    parseTokens size [⟨.ident x, start, stop⟩] = .ok (.ident x ⟨start, stop⟩) := by
  have hlevel : parseLevel size 23 0 [⟨.ident x, start, stop⟩] = _ :=
    parseLevel_ident size 12 start stop x BinaryOp.levels le_rfl
  have h : parseChoice size 24 [⟨.ident x, start, stop⟩] =
      .ok (.ident x ⟨start, stop⟩, stop, []) := by
    rw [parseChoice, hlevel]
    rfl
  simp only [parseTokens, List.length_singleton, h]
  rfl

end

/-- A text is read as a name. -/
def IsName (x : String) : Prop :=
  ∃ start stop, tokenize x.toList = .ok [⟨.ident x, start, stop⟩]

/-- The items, one of each kind, whose expression is a given name. -/
def Item.ofName (x : String) : List Item :=
  [.group ⟨"", [⟨.first, some x, ""⟩]⟩, .loop ⟨"", x, "", ""⟩, .text ('\x7b' :: (x.toList ++ ['\x7d'])),
    .binding x.toList]

namespace IsName

variable {x : String}

theorem scanned (h : IsName x) : ∃ cs rest, Scanned cs (.ident x) rest := by
  obtain ⟨start, stop, ht⟩ := h
  exact (lexed_of_lexFrom (Nat.lt_succ_self _) ht).scanned (List.mem_singleton_self _)

theorem identRest (h : IsName x) : ∀ c ∈ x.toList, isIdentRest c = true :=
  let ⟨_, _, hs⟩ := h.scanned
  (hs.ident rfl).2.2.1.2

theorem ne_nil (h : IsName x) : x.toList ≠ [] :=
  let ⟨_, _, hs⟩ := h.scanned
  (hs.ident rfl).2.1

end IsName

section

variable {w : List Char} (hw : ∀ c ∈ w, isIdentRest c = true)
include hw

theorem ne_of_isIdentRest {d : Char} (hd : isIdentRest d = false) : ∀ c ∈ w, c ≠ d := by
  rintro c hc rfl
  rw [hw c hc] at hd
  cases hd

theorem normalize_word : normalize w = w := by
  have hb : trim w = w := trim_eq_self fun c hc => isBlank_of_isIdentRest (hw c hc)
  have hbrace : unwrapBraces w = w := by
    rcases w with _ | ⟨c, w⟩
    · rfl
    · unfold unwrapBraces
      split
      · rename_i h
        cases h
        exact absurd rfl (ne_of_isIdentRest hw (d := '\x7b') (by decide) _ (by simp))
      · rfl
  have hline : w.map lineBlank = w := by
    refine (List.map_congr_left fun c hc => ?_).trans (List.map_id' w)
    have hn := ne_of_isIdentRest hw (d := '\n') (by decide) c hc
    have hr := ne_of_isIdentRest hw (d := '\r') (by decide) c hc
    simp [lineBlank, hn, hr]
  calc normalize w = trim ((unwrapBraces (trim w)).map lineBlank) := rfl
    _ = w := by rw [hb, hbrace, hline, hb]

/-- A word has no access to an item in it. -/
theorem scanFixedAccess_word : scanFixedAccess w = none := by
  rcases w with _ | ⟨c, cs⟩
  · rfl
  · unfold scanFixedAccess
    simp only
    split_ifs
    · split
      · rename_i rest hd
        have hmem : '[' ∈ c :: cs := (List.dropWhile_sublist isNameRest).subset (hd ▸ List.mem_cons_self)
        exact absurd rfl (ne_of_isIdentRest hw (d := '[') (by decide) _ hmem)
      · rfl
    · rfl

theorem fixedAccessesFrom_word (fuel : Nat) (previous : Option Char) :
    fixedAccessesFrom fuel previous w = [] := by
  induction fuel generalizing previous w with
  | zero => rfl
  | succ fuel ih =>
    rcases w with _ | ⟨c, w⟩
    · rfl
    · rw [fixedAccessesFrom, scanFixedAccess_word hw]
      exact ih (fun d hd => hw d (List.mem_cons_of_mem c hd)) _

theorem nameItemsFrom_word (fuel : Nat) (previous : Option Char) (bound : List (String × Value)) :
    nameItemsFrom s fuel previous bound w = (w, bound) := by
  induction fuel generalizing previous w with
  | zero => rfl
  | succ fuel ih =>
    rcases w with _ | ⟨c, w⟩
    · rfl
    · rw [nameItemsFrom, scanFixedAccess_word hw]
      simp only [ih fun d hd => hw d (List.mem_cons_of_mem c hd)]

/-- The group of braces around a word. -/
theorem braceGroup?_word :
    braceGroup? ('\x7b' :: (w ++ ['\x7d'])) = some ('\x7b' :: (w ++ ['\x7d']), []) := by
  have hscan : scanGroup 1 none (w ++ ['\x7d']) = some (w ++ ['\x7d'], []) := by
    induction w with
    | nil => rfl
    | cons c w ih =>
      have hc := hw c (by simp)
      have hclose : c ≠ '\x7d' := ne_of_isIdentRest hw (by decide) c (by simp)
      have hopen : c ≠ '\x7b' := ne_of_isIdentRest hw (by decide) c (by simp)
      have hquote : isGroupQuote c = false := by
        have h₁ := ne_of_isIdentRest hw (d := '"') (by decide) c (by simp)
        have h₂ := ne_of_isIdentRest hw (d := '\'') (by decide) c (by simp)
        have h₃ := ne_of_isIdentRest hw (d := '\x60') (by decide) c (by simp)
        simp [isGroupQuote, h₁, h₂, h₃]
      rw [List.cons_append, scanGroup.eq_4, if_neg hclose, if_neg hopen, hquote]
      simp [ih fun d hd => hw d (List.mem_cons_of_mem c hd)]
  rw [braceGroup?, hscan]
  rfl

theorem pieces_word (h0 : w ≠ []) :
    Interpolation.pieces ('\x7b' :: (w ++ ['\x7d'])) = [.token w] := by
  have hlen : ('\x7b' :: (w ++ ['\x7d'])).length = (w.length + 1) + 1 := by simp
  rw [Interpolation.pieces, hlen, piecesFrom, braceGroup?_word hw]
  simp [h0, piecesFrom]

end

namespace IsName

variable {x : String} (h : IsName x) (namesItems : Bool)
include h

theorem parseExpr_eq : ∃ span, parseExpr x.toList = .ok (.ident x span) := by
  obtain ⟨start, stop, ht⟩ := h
  refine ⟨⟨start, stop⟩, ?_⟩
  rw [parseExpr, ht, ok_bind]
  exact parseTokens_ident ..

theorem valueOf_eq : valueOf namesItems s x.toList = (s.find? x).getD .undefined := by
  obtain ⟨span, hp⟩ := h.parseExpr_eq
  have hbound : nameItems s x.toList = (x.toList, []) := nameItemsFrom_word h.identRest _ _ _
  have heval : evaluate namesItems s x.toList = (Expr.ident x span).eval s := by
    unfold evaluate
    simp only [normalize_word h.identRest, hbound, hp, ok_bind, ne_eq, not_true_eq_false,
      decide_false, Bool.and_false, Bool.false_eq_true, ↓reduceIte]
  rw [valueOf, heval, Expr.eval]
  rcases s.find? x with _ | v <;> rfl

theorem lookups_eq : lookups namesItems s x.toList = [x] := by
  obtain ⟨span, hp⟩ := h.parseExpr_eq
  have hbound : nameItems s x.toList = (x.toList, []) := nameItemsFrom_word h.identRest _ _ _
  have htext : textLookups x.toList = [x] := by rw [textLookups, hp]; rfl
  have hfixed : fixedAccesses x.toList = [] := fixedAccessesFrom_word h.identRest _ _
  unfold lookups
  simp only [normalize_word h.identRest, hbound, htext, hfixed]
  cases namesItems <;> rfl

end IsName

namespace IsName

variable {x : String} (h : IsName x)
include h

theorem text_expressions :
    Interpolation.expressions ('\x7b' :: (x.toList ++ ['\x7d'])) = [x.toList] := by
  rw [Interpolation.expressions, pieces_word h.identRest h.ne_nil]
  rfl

theorem text_render (f : List Char → List Char) :
    Interpolation.render f ('\x7b' :: (x.toList ++ ['\x7d'])) = f x.toList := by
  rw [Interpolation.render, pieces_word h.identRest h.ne_nil, List.flatMap_singleton]

theorem expressions_eq : ∀ it ∈ Item.ofName x, it.expressions = [x.toList] := by
  simp [Item.ofName, Item.expressions, ConditionGroup.conditions, h.text_expressions]

theorem mem_expressionVars_iff : x ∈ expressionVars x.toList ↔ isTracked x.toList = true := by
  refine LiveMarkup.mem_expressionVars_iff (fun hbreak => ?_) ?_
  · have := h.identRest '\\' (hbreak.subset (by simp))
    revert this
    decide
  · have := h.lookups_eq (s := default) false
    rw [lookups, if_neg (by simp)] at this
    simp [this]

/-- To pass over a name that is not found shows an old value. -/
theorem not_skipSound (hx : x ∉ expressionVars x.toList) : ∀ it ∈ Item.ofName x, ¬ SkipSound o it := by
  intro it hit hsound
  let shown : Scope := ⟨[(x, .string "a")], []⟩
  let hidden : Scope := ⟨[(x, .string "")], []⟩
  have hagree : AgreeOff [x] shown hidden := fun y hy => by
    have hy : (y == x) = false := by simpa using hy
    simp [Scope.find?, shown, hidden, List.lookup, hy]
  have hmeets : it.meets (.keys [x]) = false := by
    rw [Item.meets_eq_false_iff, h.expressions_eq it hit, List.forall_mem_singleton]
    rintro y hy hyx
    exact hx (List.mem_singleton.mp hyx ▸ hy)
  have hshown : valueOf o.namesItems shown x.toList = .string "a" := by
    simp [h.valueOf_eq, Scope.find?, shown]
  have hhidden : valueOf o.namesItems hidden x.toList = .string "" := by
    simp [h.valueOf_eq, Scope.find?, hidden]
  have heq := hsound [x] shown hidden hagree hmeets
  simp only [Item.ofName, List.mem_cons, List.not_mem_nil, or_false] at hit
  rcases hit with rfl | rfl | rfl | rfl
  · simp [Item.outcome, View.chosenBlock, hshown, hhidden, Value.isTruthy] at heq
  · simp [Item.outcome, hshown, hhidden] at heq
  · have hs : shownValue o.namesItems shown x.toList = "a".toList := by
      simp only [shownValue, hshown, Value.chars, Value.plainText]
    have hh : shownValue o.namesItems hidden x.toList = "".toList := by
      simp only [shownValue, hhidden, Value.chars, Value.plainText]
    simp [Item.outcome, h.text_render, hs, hh] at heq
  · simp [Item.outcome, hshown, hhidden] at heq

end IsName

/-- What is passed over looks the same if all names that are looked up in it are found in it.  Where
strings are read as they are blanked and no fixed items are named, those are found that are not
passed over; and with such a name alone for an expression an item goes out of date. -/
theorem skipping_sound (o : ViewOptions) :
    (∀ (it : Item) (names : List String) (s s' : Scope), AgreeOff names s s' →
      it.meets (.keys names) = false → it.Tracked o s → it.outcome o s = it.outcome o s') ∧
    (∀ (it : Item) (s : Scope),
      (∀ c ∈ it.expressions, ¬ HasEscapedBreak c ∧
        (o.namesItems = true → fixedAccesses (normalize c) = [])) →
        (it.Tracked o s ↔
          ∀ c ∈ it.expressions, ∀ x ∈ textLookups (normalize c), isTracked x.toList = true)) ∧
    ∀ (x : String), IsName x → ∀ it ∈ Item.ofName x,
      (SkipSound o it ↔ isTracked x.toList = true) := by
  refine ⟨fun it names s s' => Item.outcome_eq_of_not_meets, fun it s h => ?_,
    fun x hx it hit => ⟨fun hs => ?_, fun ht names s s' hagree hm => ?_⟩⟩
  · refine forall₂_congr fun c hc => ?_
    rw [lookups_eq_textLookups (h c hc).2]
    exact forall₂_congr fun x hx => mem_expressionVars_iff (h c hc).1 hx
  · by_contra ht
    exact hx.not_skipSound (mt hx.mem_expressionVars_iff.mp ht) it hit hs
  · refine Item.outcome_eq_of_not_meets hagree hm fun c hc y hy => ?_
    rw [hx.expressions_eq it hit, List.mem_singleton] at hc
    subst hc
    rw [hx.lookups_eq, List.mem_singleton] at hy
    subst hy
    exact hx.mem_expressionVars_iff.mpr ht

theorem skipping_sound_at_names :
    (let s : Scope := ⟨[("a", .string "x"), ("b", .string "y")], []⟩
    let s' : Scope := ⟨[("a", .string "x"), ("b", .string "z")], []⟩
    (Item.binding "a".toList).outcome {} s = (Item.binding "a".toList).outcome {} s') ∧
    ((Item.binding "a".toList).Tracked {} default ↔
      ∀ c ∈ (Item.binding "a".toList).expressions, ∀ x ∈ textLookups (normalize c),
        isTracked x.toList = true) ∧
    (SkipSound {} (.binding "_b1".toList) ↔ isTracked "_b1".toList = true) := by
  have ha : IsName "a" := ⟨0, 1, rfl⟩
  have hb : IsName "_b1" := ⟨0, 3, rfl⟩
  refine ⟨(skipping_sound {}).1 _ ["b"] _ _ (fun y hy => ?_) (by decide +kernel) ?_,
    (skipping_sound {}).2.1 _ _ ?_, (skipping_sound {}).2.2 _ hb _ (by simp [Item.ofName])⟩
  · have hy : (y == "b") = false := by simpa using hy
    simp [Scope.find?, List.lookup, hy]
  · intro c hc x hx
    rw [List.mem_singleton.mp hc, ha.lookups_eq, List.mem_singleton] at hx
    rw [List.mem_singleton.mp hc, hx]
    decide +kernel
  · rw [Item.expressions, List.forall_mem_singleton]
    refine ⟨?_, by rintro ⟨⟩⟩
    unfold HasEscapedBreak
    decide +kernel

/-- A page with a name that has a dollar sign goes out of date. -/
theorem dollar_name_not_skipSound : ¬ SkipSound {} (.text "\x7b$x\x7d".toList) := by
  have hx : IsName "$x" := ⟨0, 2, rfl⟩
  exact hx.not_skipSound (by decide +kernel) _ (by simp [Item.ofName])

end LiveMarkup
