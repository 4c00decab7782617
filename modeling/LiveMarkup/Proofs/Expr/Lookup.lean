import Mathlib.Tactic.Common
import LiveMarkup.Expr.Evaluate
import LiveMarkup.Proofs.Result

/-!
# What an evaluation looks up

The value of an expression text depends on the scope only through the names that are looked up in it
(`lookups`): those in its tree and, where accesses to fixed items are named first, the names of the
arrays.  Scopes that agree on these names give the same value, and the same error
(`evaluate_congr`).
-/

namespace LiveMarkup

open Text

namespace Scope

@[simp] theorem find?_set (s : Scope) (name x : String) (v : Value) :
    (s.set name v).find? x = if x = name then some v else s.find? x := by
  simp only [find?, set, Bindings.set, List.findSome?_cons, lookup_insertByKey]
  by_cases hx : x = name <;> simp [hx]

@[simp] theorem find?_child (s : Scope) (x : String) : s.child.find? x = s.find? x :=
  rfl

/-- Bindings that are added to two scopes leave no difference but where there was one. -/
theorem find?_foldl_set_congr {s s' : Scope} {x : String} {bound : List (String × Value)}
    (h : x ∈ bound.map (·.1) ∨ s.find? x = s'.find? x) :
    (bound.foldl (fun s (name, value) => s.set name value) s).find? x =
      (bound.foldl (fun s (name, value) => s.set name value) s').find? x := by
  induction bound generalizing s s' with
  | nil => simpa using h
  | cons b bound ih =>
    obtain ⟨name, value⟩ := b
    refine ih ?_
    by_cases hx : x = name
    · simp [hx]
    · simpa [hx] using h

end Scope

/-- The value of an expression depends on the names in it alone. -/
theorem Expr.eval_congr {s s' : Scope} {e : Expr}
    (h : ∀ x ∈ e.occurrences, s.find? x = s'.find? x) : e.eval s = e.eval s' := by
  induction e with
  | literal => rfl
  | ident name => simp only [eval, h name (by simp [occurrences])]
  | member object property _ ih => simp only [eval, ih h]
  | index object key _ iho ihk =>
    simp only [occurrences, List.mem_append] at h
    simp only [eval, iho fun x hx => h x (.inl hx), ihk fun x hx => h x (.inr hx)]
  | unary op operand _ ih => simp only [eval, ih h]
  | binary op left right _ ihl ihr =>
    simp only [occurrences, List.mem_append] at h
    simp only [eval, ihl fun x hx => h x (.inl hx), ihr fun x hx => h x (.inr hx)]
  | conditional test a b _ iht iha ihb =>
    simp only [occurrences, List.mem_append] at h
    simp only [eval, iht fun x hx => h x (.inl (.inl hx)), iha fun x hx => h x (.inl (.inr hx)),
      ihb fun x hx => h x (.inr hx)]

/-- The names that an expression text looks up; none if it cannot be read. -/
def textLookups (text : List Char) : List String :=
  match parseExpr text with
  | .ok e => e.occurrences
  | .error _ => []

theorem eval_parseExpr_congr {s s' : Scope} {text : List Char}
    (h : ∀ x ∈ textLookups text, s.find? x = s'.find? x) :
    (do (← parseExpr text).eval s) = (do (← parseExpr text).eval s') := by
  unfold textLookups at h
  rcases hp : parseExpr text with _ | e <;> rw [hp] at h
  · rfl
  · exact Expr.eval_congr h

/-! ## Named items -/

/-- The arrays of which a fixed item may be named. -/
def fixedAccessesFrom : Nat → Option Char → List Char → List String
  | 0, _, _ => []
  | _ + 1, _, [] => []
  | fuel + 1, previous, c :: cs =>
    match scanFixedAccess (c :: cs) with
    | none => fixedAccessesFrom fuel (some c) cs
    | some (name, _, rest) =>
      (if attaches previous then [] else [String.ofList name]) ++
        fixedAccessesFrom fuel (some ']') rest

/-- The arrays of which a text accesses a fixed item. -/
def fixedAccesses (text : List Char) : List String :=
  fixedAccessesFrom (text.length + 1) none text

theorem namedItem?_congr {s s' : Scope} {name digits : List Char}
    (h : s.find? (String.ofList name) = s'.find? (String.ofList name)) :
    namedItem? s name digits = namedItem? s' name digits := by
  unfold namedItem?
  rw [h]

theorem nameItemsFrom_congr {s s' : Scope} : ∀ (fuel : Nat) (previous : Option Char)
    (bound : List (String × Value)) (cs : List Char),
    (∀ x ∈ fixedAccessesFrom fuel previous cs, s.find? x = s'.find? x) →
      nameItemsFrom s fuel previous bound cs = nameItemsFrom s' fuel previous bound cs
  | 0, _, _, _, _ => rfl
  | _ + 1, _, _, [], _ => rfl
  | fuel + 1, previous, bound, c :: cs, h => by
    unfold fixedAccessesFrom at h
    unfold nameItemsFrom
    rcases hf : scanFixedAccess (c :: cs) with _ | ⟨name, digits, rest⟩ <;> simp only [hf] at h ⊢
    · rw [nameItemsFrom_congr fuel _ _ _ h]
    · have hrest : ∀ x ∈ fixedAccessesFrom fuel (some ']') rest, s.find? x = s'.find? x :=
        fun x hx => h x (List.mem_append_right _ hx)
      have hitem : (if attaches previous then none else namedItem? s name digits) =
          if attaches previous then none else namedItem? s' name digits := by
        by_cases ha : attaches previous
        · simp only [ha, ↓reduceIte]
        · rw [namedItem?_congr (h _ (by simp [ha]))]
      rw [hitem]
      split <;> simp only [nameItemsFrom_congr fuel _ _ _ hrest]

theorem nameItems_congr {s s' : Scope} {text : List Char}
    (h : ∀ x ∈ fixedAccesses text, s.find? x = s'.find? x) : nameItems s text = nameItems s' text :=
  nameItemsFrom_congr _ _ _ _ h

/-- Nothing is named in a text without accesses to fixed items. -/
theorem nameItemsFrom_bound {s : Scope} : ∀ {fuel : Nat} {previous : Option Char}
    {bound : List (String × Value)} {cs : List Char}, fixedAccessesFrom fuel previous cs = [] →
      (nameItemsFrom s fuel previous bound cs).2 = bound
  | 0, _, _, _, _ => rfl
  | _ + 1, _, _, [], _ => rfl
  | fuel + 1, previous, bound, c :: cs, h => by
    unfold fixedAccessesFrom at h
    unfold nameItemsFrom
    rcases hf : scanFixedAccess (c :: cs) with _ | ⟨name, digits, rest⟩ <;> simp only [hf] at h ⊢
    · exact nameItemsFrom_bound h
    · rw [List.append_eq_nil_iff] at h
      have ha : attaches previous = true := by
        by_contra ha
        simp [ha] at h
      simp only [ha, ↓reduceIte]
      exact nameItemsFrom_bound h.2

/-! ## Evaluation -/

/-- The names that an evaluation looks up outside the bindings that it makes itself. -/
def lookups (namesItems : Bool) (s : Scope) (source : List Char) : List String :=
  let text := normalize source
  if namesItems then
    let (named, bound) := nameItems s text
    fixedAccesses text ++
      if bound = [] then textLookups text
      else (textLookups named).filter (· ∉ bound.map (·.1))
  else textLookups text

variable {namesItems : Bool} {s s' : Scope} {source : List Char}

theorem evaluate_congr (h : ∀ x ∈ lookups namesItems s source, s.find? x = s'.find? x) :
    evaluate namesItems s source = evaluate namesItems s' source := by
  cases namesItems
  · exact eval_parseExpr_congr h
  · simp only [lookups, ↓reduceIte, List.mem_append] at h
    unfold evaluate
    simp only
    rw [← nameItems_congr (s := s) fun x hx => h x (.inl hx)]
    rcases hn : nameItems s (normalize source) with ⟨named, bound⟩
    rw [hn] at h
    by_cases hb : bound = []
    · subst hb
      exact eval_parseExpr_congr fun x hx => h x (.inr (by simpa using hx))
    · simp only [hb, ne_eq, not_false_eq_true, decide_true, Bool.and_self, ↓reduceIte] at h ⊢
      refine eval_parseExpr_congr fun x hx => Scope.find?_foldl_set_congr ?_
      by_cases hx' : x ∈ bound.map (·.1)
      · exact .inl hx'
      · exact .inr (h x (.inr (List.mem_filter.mpr ⟨hx, by simpa using hx'⟩)))

theorem lookups_eq_textLookups (h : namesItems = true → fixedAccesses (normalize source) = []) :
    lookups namesItems s source = textLookups (normalize source) := by
  cases namesItems
  · rfl
  · have hb : (nameItems s (normalize source)).2 = [] := nameItemsFrom_bound (h rfl)
    simp only [lookups, ↓reduceIte, hb, h rfl, List.nil_append]

theorem valueOf_congr (h : ∀ x ∈ lookups namesItems s source, s.find? x = s'.find? x) :
    valueOf namesItems s source = valueOf namesItems s' source := by
  unfold valueOf
  rw [evaluate_congr h]

end LiveMarkup
