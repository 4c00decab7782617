import LiveMarkup.Decimal.Binary
import LiveMarkup.Expr.Basic
import LiveMarkup.Expr.Error
import LiveMarkup.Value.Scope

/-!
# Evaluating expressions

An expression is evaluated in a scope.  It fails where a name is not bound or a property of nothing
is asked for; of the choices and the operators `&&`, `||` and `??` only the operand that counts is
evaluated after the first.
-/

namespace LiveMarkup

namespace Value

/-- A property of a value, which must be one. -/
def property (target : Value) (name : String) : Except ExprError Value :=
  match target with
  | undefined | null => .error (.noProperties name target.typeName)
  | array items => .ok (if name = "length" then number (Float.ofNat items.length) else undefined)
  | string s => .ok (if name = "length" then number (Float.ofNat s.length) else undefined)
  | target => .ok ((target.member? name).getD undefined)

/-- What a value holds under a key. -/
def at? (target key : Value) : Except ExprError Value :=
  match target, key with
  | undefined, key => .error (.noProperties key.text target.typeName)
  | null, key => .error (.noProperties key.text target.typeName)
  | string s, number x =>
    .ok (match (position? x).bind fun i => s.toList[i]? with
      | some c => string (String.ofList [c])
      | none => undefined)
  | target, string name =>
    if name = "length" then target.property name
    else .ok ((target.item? (string name)).getD undefined)
  | target, key => .ok ((target.item? key).getD undefined)

/-- Whether a value is joined as text by `+`. -/
def joinsAsText : Value → Bool
  | string _ | array _ | object _ => true
  | _ => false

/-- Whether two values are equal after the conversions of `==`. -/
def looselySame : Value → Value → Bool
  | undefined, w => w.isNullish
  | null, w => w.isNullish
  | boolean b, w => !w.isNullish && (boolean b).toNumber == w.toNumber
  | number x, w =>
    match w with
    | string _ | boolean _ => x == w.toNumber
    | w => same (number x) w
  | string s, w =>
    match w with
    | number _ | boolean _ => (string s).toNumber == w.toNumber
    | w => same (string s) w
  | v, w =>
    match w with
    | boolean _ => v.toNumber == w.toNumber
    | w => same v w

/-- The order of two values: strings by their characters, others as numbers. -/
def compare? : Value → Value → Option Ordering
  | string s, string t => some (if s < t then .lt else if s = t then .eq else .gt)
  | v, w =>
    let x := v.toNumber
    let y := w.toNumber
    if x < y then some .lt else if x == y then some .eq else if y < x then some .gt else none

end Value

/-- The result of a binary operator that evaluates both operands. -/
def BinaryOp.apply (op : BinaryOp) (v w : Value) : Value :=
  match op with
  | .add =>
    if v.joinsAsText || w.joinsAsText then .string (v.text ++ w.text)
    else .number (v.toNumber + w.toNumber)
  | .subtract => .number (v.toNumber - w.toNumber)
  | .multiply => .number (v.toNumber * w.toNumber)
  | .divide => .number (v.toNumber / w.toNumber)
  | .remainder => .number (Decimal.remainder v.toNumber w.toNumber)
  | .equal => .boolean (v.looselySame w)
  | .notEqual => .boolean (!v.looselySame w)
  | .identical => .boolean (v.same w)
  | .notIdentical => .boolean (!v.same w)
  | .less => .boolean (v.compare? w = some .lt)
  | .lessEqual => .boolean (v.compare? w = some .lt || v.compare? w = some .eq)
  | .greater => .boolean (v.compare? w = some .gt)
  | .greaterEqual => .boolean (v.compare? w = some .gt || v.compare? w = some .eq)
  | .and | .or | .coalesce => .undefined

/-- The result of a unary operator. -/
def UnaryOp.apply (op : UnaryOp) (v : Value) : Value :=
  match op with
  | .not => .boolean (!v.isTruthy)
  | .negate => .number (-v.toNumber)
  | .plus => .number v.toNumber

/-- The value of an expression in a scope. -/
def Expr.eval (scope : Scope) : Expr → Except ExprError Value
  | literal value _ => .ok value
  | ident name _ =>
    match scope.find? name with
    | some value => .ok value
    | none => .error (.unbound name)
  | member object property _ => do (← object.eval scope).property property
  | index object key _ => do
    let target ← object.eval scope
    let key ← key.eval scope
    target.at? key
  | unary op operand _ => do return op.apply (← operand.eval scope)
  | binary op left right _ => do
    let v ← left.eval scope
    match op with
    | .and => if v.isTruthy then right.eval scope else return v
    | .or => if v.isTruthy then return v else right.eval scope
    | .coalesce => if v.isNullish then right.eval scope else return v
    | op => do return op.apply v (← right.eval scope)
  | conditional test whenTrue whenFalse _ => do
    if (← test.eval scope).isTruthy then whenTrue.eval scope else whenFalse.eval scope

end LiveMarkup
