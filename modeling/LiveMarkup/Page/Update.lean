/-!
# What an update concerns

When the state of a page changes, only what depends on a changed name is shown anew.
-/

namespace LiveMarkup

/-- The names whose values may have changed. -/
inductive Update where
  | all
  | keys (names : List String)
  deriving DecidableEq, Inhabited

namespace Update

/-- Whether a name may have changed. -/
def contains : Update → String → Bool
  | all, _ => true
  | keys names, name => name ∈ names

/-- Whether something that depends on the given names has to be shown anew. -/
def meets : Update → List String → Bool
  | all, _ => true
  | keys names, vars => vars.any (· ∈ names)

/-- Whether nothing has changed. -/
def isEmpty : Update → Bool
  | all => false
  | keys names => names.isEmpty

end Update

end LiveMarkup
