import LiveMarkup.Expr.Basic
import LiveMarkup.Expr.Lexer

/-!
# Reading expressions

From the loosest to the tightest: a choice `c ? a : b`, the seven levels of binary operators, each
associating to the left, the prefix operators, the accesses `.name` and `[key]`, and the operands.
Parentheses and braces group.

A parser of one level takes the tokens that are left and returns a tree, the byte at which the last
token taken ends, and the tokens after it.  The fuel bounds the nesting of the parsers; a token is
taken every twelve levels at least, and `parse` computes it from the tokens.
-/

namespace LiveMarkup

/-- A tree, the end of its last token, and the tokens after it. -/
abbrev Parsed := Except ExprError (Expr × Nat × List Lexeme)

/-- The first byte of the first token. -/
def startOf (size : Nat) : List Lexeme → Nat
  | [] => size
  | t :: _ => t.start

/-- A symbol that has to come next: where it ends, and the tokens after it. -/
def expect (size : Nat) (s : Symbol) : List Lexeme → Except ExprError (Nat × List Lexeme)
  | [] => .error (.unexpectedEnd size)
  | t :: ts =>
    if t.token = .symbol s then .ok (t.stop, ts)
    else .error (.unexpectedToken t.start (.symbol s) t.token)

/-- A property name, which may be a reserved word. -/
def expectProperty (size : Nat) : List Lexeme → Except ExprError (String × Nat × List Lexeme)
  | [] => .error (.unexpectedEnd size)
  | t :: ts =>
    match t.token with
    | .ident name => .ok (name, t.stop, ts)
    | .reserved w => .ok (w.spelling, t.stop, ts)
    | token => .error (.unexpectedToken t.start .propertyName token)

/-- The value that a reserved word stands for. -/
def Reserved.value : Reserved → Value
  | .true => .boolean Bool.true
  | .false => .boolean Bool.false
  | .null => .null
  | .undefined => .undefined
  | .nan => .number Decimal.nan
  | .infinity => .number Decimal.infinity

/-- The operator of a level that comes next, and the tokens after it. -/
def operatorAt? (level : Nat) : List Lexeme → Option (BinaryOp × List Lexeme)
  | ⟨.symbol s, _, _⟩ :: ts =>
    match BinaryOp.ofSymbol? s with
    | some op => if op.level = level then some (op, ts) else none
    | none => none
  | _ => none

mutual

/-- A choice, or what binds tighter. -/
def parseChoice (size : Nat) : Nat → List Lexeme → Parsed
  | 0, _ => .error .empty
  | fuel + 1, ts => do
    let (test, stop, rest) ← parseLevel size fuel 0 ts
    match rest with
    | ⟨.symbol .question, _, _⟩ :: rest =>
      let (a, _, rest) ← parseChoice size fuel rest
      let (_, rest) ← expect size .colon rest
      let (b, stop, rest) ← parseChoice size fuel rest
      return (.conditional test a b ⟨startOf size ts, stop⟩, stop, rest)
    | _ => return (test, stop, rest)

/-- Operands of a level and the operators between them. -/
def parseLevel (size : Nat) : Nat → Nat → List Lexeme → Parsed
  | 0, _, _ => .error .empty
  | fuel + 1, level, ts =>
    if level < BinaryOp.levels then do
      let (left, stop, rest) ← parseLevel size fuel (level + 1) ts
      parseOperators size fuel level (startOf size ts) left stop rest
    else parseUnary size fuel ts

/-- The operators of a level that follow a left operand. -/
def parseOperators (size : Nat) : Nat → Nat → Nat → Expr → Nat → List Lexeme → Parsed
  | 0, _, _, _, _, _ => .error .empty
  | fuel + 1, level, start, left, stop, ts =>
    match operatorAt? level ts with
    | none => .ok (left, stop, ts)
    | some (op, ts) => do
      let (right, stop, rest) ← parseLevel size fuel (level + 1) ts
      parseOperators size fuel level start (.binary op left right ⟨start, stop⟩) stop rest

/-- Prefix operators and their operand. -/
def parseUnary (size : Nat) : Nat → List Lexeme → Parsed
  | 0, _ => .error .empty
  | fuel + 1, ts =>
    match ts with
    | ⟨.symbol s, start, _⟩ :: rest =>
      match UnaryOp.ofSymbol? s with
      | some op => do
        let (operand, stop, rest) ← parseUnary size fuel rest
        return (.unary op operand ⟨start, stop⟩, stop, rest)
      | none => parseAccess size fuel ts
    | _ => parseAccess size fuel ts

/-- An operand and the accesses that follow it. -/
def parseAccess (size : Nat) : Nat → List Lexeme → Parsed
  | 0, _ => .error .empty
  | fuel + 1, ts => do
    let (e, stop, rest) ← parseOperand size fuel ts
    parseAccesses size fuel (startOf size ts) e stop rest

/-- The accesses that follow an expression. -/
def parseAccesses (size : Nat) : Nat → Nat → Expr → Nat → List Lexeme → Parsed
  | 0, _, _, _, _ => .error .empty
  | fuel + 1, start, e, stop, ts =>
    match ts with
    | ⟨.symbol .dot, _, _⟩ :: rest => do
      let (property, stop, rest) ← expectProperty size rest
      parseAccesses size fuel start (.member e property ⟨start, stop⟩) stop rest
    | ⟨.symbol .openBracket, _, _⟩ :: rest => do
      let (key, _, rest) ← parseChoice size fuel rest
      let (stop, rest) ← expect size .closeBracket rest
      parseAccesses size fuel start (.index e key ⟨start, stop⟩) stop rest
    | _ => .ok (e, stop, ts)

/-- A literal, a name, or an expression in parentheses or braces. -/
def parseOperand (size : Nat) : Nat → List Lexeme → Parsed
  | 0, _ => .error .empty
  | _ + 1, [] => .error (.unexpectedEnd size)
  | fuel + 1, ⟨token, start, stop⟩ :: rest =>
    match token with
    | .reserved w => .ok (.literal w.value ⟨start, stop⟩, stop, rest)
    | .ident name => .ok (.ident name ⟨start, stop⟩, stop, rest)
    | .string spelling => .ok (.literal (.string (unquote spelling)) ⟨start, stop⟩, stop, rest)
    | .number spelling =>
      let x := (Decimal.read? spelling.toList).getD 0
      .ok (.literal (.number x) ⟨start, stop⟩, stop, rest)
    | .symbol .openParen => do
      let (e, _, rest) ← parseChoice size fuel rest
      let (stop, rest) ← expect size .closeParen rest
      return (e, stop, rest)
    | .symbol .openBrace => do
      let (e, _, rest) ← parseChoice size fuel rest
      let (stop, rest) ← expect size .closeBrace rest
      return (e, stop, rest)
    | token => .error (.unexpectedToken start .expression token)

end

/-- The tree of a sequence of tokens, of a text with `size` bytes. -/
def parseTokens (size : Nat) (ts : List Lexeme) : Except ExprError Expr :=
  match ts with
  | [] => .error .empty
  | ts => do
    let (e, _, rest) ← parseChoice size (12 * (ts.length + 1)) ts
    match rest with
    | [] => return e
    | t :: _ => .error (.unexpectedToken t.start .endOfExpression t.token)

/-- The tree of an expression. -/
def parseExpr (source : List Char) : Except ExprError Expr := do
  parseTokens (Text.byteLength source) (← tokenize source)

end LiveMarkup
