import LiveMarkup.Expr.Token

/-!
# What can be wrong with an expression

Four errors lie in its text, and two show when it is evaluated.  Positions count bytes.
-/

namespace LiveMarkup

/-- What a parser wanted instead of the token it met. -/
inductive Expected where
  | endOfExpression
  | expression
  | propertyName
  | symbol (s : Symbol)
  deriving DecidableEq

/-- What was wanted, as messages name it. -/
def Expected.describe : Expected → String
  | .endOfExpression => "end of expression"
  | .expression => "expression"
  | .propertyName => "property name"
  | .symbol s => s.spelling

/-- An error of an expression. -/
inductive ExprError where
  | empty
  | unexpectedCharacter (pos : Nat)
  | unexpectedToken (pos : Nat) (expected : Expected) (found : Token)
  | unexpectedEnd (pos : Nat)
  | unbound (name : String)
  | noProperties (property target : String)
  deriving DecidableEq

namespace ExprError

/-- Whether an error lies in the text of an expression. -/
def isSyntactic : ExprError → Bool
  | empty | unexpectedCharacter _ | unexpectedToken .. | unexpectedEnd _ => true
  | unbound _ | noProperties .. => false

/-- An error in words. -/
def message : ExprError → String
  | empty => "Empty expression"
  | unexpectedCharacter pos => s!"Unexpected character at {pos}"
  | unexpectedToken pos expected found =>
    s!"Unexpected token at {pos}: expected {expected.describe}, found {found.describe}"
  | unexpectedEnd pos => s!"Unexpected end of expression at {pos}"
  | unbound name => s!"Variable '{name}' is not defined"
  | noProperties property target => s!"Cannot read property '{property}' of {target}"

end ExprError

end LiveMarkup
