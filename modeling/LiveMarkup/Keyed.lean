/-!
# Lists ordered by key

Pairs of a key and a value, each key once and in the order of the keys.
-/

namespace LiveMarkup

/-- A list of pairs with one more: it replaces a pair with the same key, or goes where the order of
keys wants it. -/
def insertByKey {α : Type} (key : String) (value : α) :
    List (String × α) → List (String × α)
  | [] => [(key, value)]
  | (k, v) :: rest =>
    if key < k then (key, value) :: (k, v) :: rest
    else if key = k then (key, value) :: rest
    else (k, v) :: insertByKey key value rest

theorem lookup_insertByKey {α : Type} (key k : String) (value : α) (xs : List (String × α)) :
    (insertByKey key value xs).lookup k = if k = key then some value else xs.lookup k := by
  induction xs with
  | nil => by_cases h : k = key <;> simp [insertByKey, List.lookup_cons, h, beq_eq_false_iff_ne.mpr]
  | cons p xs ih =>
    obtain ⟨k', v'⟩ := p
    simp only [insertByKey]
    by_cases h : k = key <;> by_cases h' : k = k' <;> split <;> (try split) <;>
      simp_all [List.lookup_cons, beq_eq_false_iff_ne.mpr]

end LiveMarkup
