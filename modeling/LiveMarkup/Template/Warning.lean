import LiveMarkup.Expr.Error
import LiveMarkup.Template.Marker

/-!
# What can be wrong with a template

Nothing that is wrong with a directive or an expression stops the compilation: the text stays as it
is, and a warning tells where.  Positions count the bytes of the text that is being read.
-/

namespace LiveMarkup

/-- The directives that start another block of a group. -/
inductive Branch where
  | elseIf
  | otherwise
  deriving DecidableEq, Inhabited

/-- The word that stands for a branch in a template. -/
def Branch.keyword : Branch → String
  | .elseIf => "elseif"
  | .otherwise => "else"

/-- A warning about a template. -/
inductive Warning where
  | unmatched (kind : DirectiveKind) (pos : Nat)
  | malformed (kind : DirectiveKind) (header : String) (pos : Nat)
  | malformedBranch (header : String) (pos : Nat)
  | branchAfterElse (branch : Branch) (group : String)
  | invalidExpression (expression location : String) (cause : ExprError)

namespace Warning

/-- An opening directive. -/
def opening (word : String) : String :=
  "\x7b@" ++ word ++ "\x7d"

/-- A closing directive. -/
def closing (word : String) : String :=
  "\x7b/" ++ word ++ "\x7d"

/-- The header of a directive in words. -/
def malformedText (word header : String) (pos : Nat) : String :=
  "Malformed " ++ opening word ++ s!" header at {pos}: " ++ header

/-- A warning in words. -/
def message : Warning → String
  | unmatched kind pos =>
    "Unmatched " ++ opening kind.keyword ++ s!" at {pos}: no closing " ++ closing kind.keyword
  | malformed kind header pos => malformedText kind.keyword header pos
  | malformedBranch header pos => malformedText Branch.elseIf.keyword header pos
  | branchAfterElse branch group =>
    "Branch " ++ opening branch.keyword ++ " is not allowed after " ++
      opening Branch.otherwise.keyword ++ " in " ++ group
  | invalidExpression expression location cause =>
    s!"Invalid expression `{expression}` in {location}: {cause.message}"

end Warning

end LiveMarkup
