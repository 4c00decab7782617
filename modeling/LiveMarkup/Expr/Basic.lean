import LiveMarkup.Value.Basic
import LiveMarkup.Expr.Token
import LiveMarkup.Text.Scan

/-!
# Expressions

The tree of an expression.  Every node carries the bytes of the text that it was read from.
-/

namespace LiveMarkup

/-- The bytes from `start` up to `stop`. -/
structure Span where
  start : Nat
  stop : Nat
  deriving DecidableEq, Inhabited

/-- An operator before its operand. -/
inductive UnaryOp where
  | not
  | negate
  | plus
  deriving DecidableEq

/-- How a unary operator is spelled. -/
def UnaryOp.spelling : UnaryOp → String
  | .not => "!"
  | .negate => "-"
  | .plus => "+"

/-- The unary operator that a symbol spells. -/
def UnaryOp.ofSymbol? : Symbol → Option UnaryOp
  | .bang => some .not
  | .minus => some .negate
  | .plus => some .plus
  | _ => none

/-- An operator between its operands. -/
inductive BinaryOp where
  | add
  | subtract
  | multiply
  | divide
  | remainder
  | equal
  | notEqual
  | identical
  | notIdentical
  | less
  | lessEqual
  | greater
  | greaterEqual
  | and
  | or
  | coalesce
  deriving DecidableEq

/-- How a binary operator is spelled. -/
def BinaryOp.spelling : BinaryOp → String
  | .add => "+"
  | .subtract => "-"
  | .multiply => "*"
  | .divide => "/"
  | .remainder => "%"
  | .equal => "=="
  | .notEqual => "!="
  | .identical => "==="
  | .notIdentical => "!=="
  | .less => "<"
  | .lessEqual => "<="
  | .greater => ">"
  | .greaterEqual => ">="
  | .and => "&&"
  | .or => "||"
  | .coalesce => "??"

/-- The binary operator that a symbol spells. -/
def BinaryOp.ofSymbol? : Symbol → Option BinaryOp
  | .plus => some .add
  | .minus => some .subtract
  | .star => some .multiply
  | .slash => some .divide
  | .percent => some .remainder
  | .equal => some .equal
  | .notEqual => some .notEqual
  | .identical => some .identical
  | .notIdentical => some .notIdentical
  | .less => some .less
  | .lessEqual => some .lessEqual
  | .greater => some .greater
  | .greaterEqual => some .greaterEqual
  | .and => some .and
  | .or => some .or
  | .coalesce => some .coalesce
  | _ => none

/-- How tightly an operator binds, from the loosest at zero. -/
def BinaryOp.level : BinaryOp → Nat
  | .coalesce => 0
  | .or => 1
  | .and => 2
  | .equal | .notEqual | .identical | .notIdentical => 3
  | .less | .lessEqual | .greater | .greaterEqual => 4
  | .add | .subtract => 5
  | .multiply | .divide | .remainder => 6

/-- The number of levels of binary operators. -/
def BinaryOp.levels : Nat := 7

theorem BinaryOp.level_lt (op : BinaryOp) : op.level < BinaryOp.levels := by
  cases op <;> decide

/-- An expression. -/
inductive Expr where
  | literal (value : Value) (span : Span)
  | ident (name : String) (span : Span)
  | member (object : Expr) (property : String) (span : Span)
  | index (object key : Expr) (span : Span)
  | unary (op : UnaryOp) (operand : Expr) (span : Span)
  | binary (op : BinaryOp) (left right : Expr) (span : Span)
  | conditional (test whenTrue whenFalse : Expr) (span : Span)
  deriving Inhabited

namespace Expr

/-- The bytes that a node was read from. -/
def span : Expr → Span
  | literal _ s | ident _ s | member _ _ s | index _ _ s | unary _ _ s | binary _ _ _ s
  | conditional _ _ _ s => s

/-- The names that an expression looks up, in the order of the text and with repetitions. -/
def occurrences : Expr → List String
  | literal _ _ => []
  | ident name _ => [name]
  | member e _ _ => e.occurrences
  | index e k _ => e.occurrences ++ k.occurrences
  | unary _ e _ => e.occurrences
  | binary _ l r _ => l.occurrences ++ r.occurrences
  | conditional t a b _ => t.occurrences ++ a.occurrences ++ b.occurrences

end Expr

/-- The names that an expression looks up, each once, in the order of the text. -/
def Expr.identifiers (e : Expr) : List String :=
  Text.distinct e.occurrences

end LiveMarkup
