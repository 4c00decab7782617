import LiveMarkup.Page.View
import LiveMarkup.Proofs.Expr.Lookup
import LiveMarkup.Proofs.Expr.Replaced

/-!
# Loops that capture no names

In the content of a loop the name of the item is replaced by an access to the array, and what comes of
that is evaluated where the name of the item and `index` are bound.  A tree with another one in place of
a name has the value that it has where the name is bound to the value of the other one
(`Expr.eval_replace`).  So if neither the array nor its items are read under a name that the loop binds,
an expression means in the content what it means with the item and its position bound
(`eval_replace_itemScope`), whatever names it has itself.
-/

namespace LiveMarkup

variable {s s' scope : Scope} {x : String} {e f array : Expr} {value item : Value}

/-- A tree with another one in place of a name has the value that it has where the name is bound to the
value of the other one. -/
theorem Expr.eval_replace (hf : f.eval s = .ok value) (hx : s'.find? x = some value)
    (hother : ∀ y ∈ e.occurrences, y ≠ x → s.find? y = s'.find? y) :
    (e.replace x f).eval s = e.eval s' := by
  induction e with
  | literal => rfl
  | ident name =>
    by_cases hname : name = x
    · rw [replace, if_pos hname, hf, eval, hname, hx]
    · rw [replace, if_neg hname, eval, eval, hother name List.mem_cons_self hname]
  | member object property _ ih => simp only [replace, eval, ih hother]
  | index object key _ iho ihk =>
    simp only [occurrences, List.mem_append] at hother
    simp only [replace, eval, iho fun y hy => hother y (.inl hy), ihk fun y hy => hother y (.inr hy)]
  | unary op operand _ ih => simp only [replace, eval, ih hother]
  | binary op left right _ ihl ihr =>
    simp only [occurrences, List.mem_append] at hother
    simp only [replace, eval, ihl fun y hy => hother y (.inl hy), ihr fun y hy => hother y (.inr hy)]
  | conditional test a b _ iht iha ihb =>
    simp only [occurrences, List.mem_append] at hother
    simp only [replace, eval, iht fun y hy => hother y (.inl (.inl hy)),
      iha fun y hy => hother y (.inl (.inr hy)), ihb fun y hy => hother y (.inr hy)]

/-- The text by which the content of a loop may read an item. -/
def LoopDefinition.access (l : LoopDefinition) (i : Nat) : String :=
  String.ofList (Text.trim l.array.toList ++ bracketed i)

/-- The scope of the content of a loop at an item, with nothing but the item and its position bound. -/
def lexicalScope (scope : Scope) (l : LoopDefinition) (i : Nat) (item : Value) : Scope :=
  (scope.child.set indexName (.number (Float.ofNat i))).set l.item item

/-- The names that a loop binds at an item. -/
def LoopDefinition.binds (l : LoopDefinition) (i : Nat) (y : String) : Prop :=
  y = l.item ∨ y = l.access i ∨ y = indexName

variable {l : LoopDefinition} {i : Nat} {y : String}

theorem find?_itemScope : (View.itemScope scope l i item).find? y =
    if y = l.item then some item else if y = l.access i then some item
    else if y = indexName then some (.number (Float.ofNat i)) else scope.find? y := by
  rw [View.itemScope, Scope.find?_set, Scope.find?_set, Scope.find?_set, Scope.find?_child,
    LoopDefinition.access]

theorem find?_lexicalScope : (lexicalScope scope l i item).find? y =
    if y = l.item then some item
    else if y = indexName then some (.number (Float.ofNat i)) else scope.find? y := by
  rw [lexicalScope, Scope.find?_set, Scope.find?_set, Scope.find?_child]

theorem find?_itemScope_of_not_binds (h : ¬ l.binds i y) :
    (View.itemScope scope l i item).find? y = scope.find? y := by
  obtain ⟨hitem, haccess, hindex⟩ := by simpa only [LoopDefinition.binds, not_or] using h
  rw [find?_itemScope, if_neg hitem, if_neg haccess, if_neg hindex]

/-- A loop whose array is read under no name that the loop binds is scoped lexically: an expression with
an access in place of the name of the item has the value that it has with the item bound. -/
theorem eval_replace_itemScope {items : List Value} {key : Expr} {span : Span} (harray : array.eval scope = .ok (.array items))
    (hcapture : ∀ y ∈ array.occurrences, ¬ l.binds i y)
    (hkey : (do (Value.array items).at? (← key.eval (View.itemScope scope l i item))) = .ok item)
    (he : l.access i ∉ e.occurrences) :
    (e.replace l.item (.index array key span)).eval (View.itemScope scope l i item) =
      e.eval (lexicalScope scope l i item) := by
  have hsame : array.eval (View.itemScope scope l i item) = .ok (.array items) := by
    rw [← harray]
    exact Expr.eval_congr fun y hy => find?_itemScope_of_not_binds (hcapture y hy)
  have hitem : (Expr.index array key span).eval (View.itemScope scope l i item) = .ok item := by
    rw [Expr.eval, hsame]
    exact hkey
  refine Expr.eval_replace hitem ?_ fun y hy hne => ?_
  · rw [find?_lexicalScope, if_pos rfl]
  · have haccess : y ≠ l.access i := fun heq => he (heq ▸ hy)
    rw [find?_itemScope, find?_lexicalScope, if_neg hne, if_neg hne, if_neg haccess]

end LiveMarkup
