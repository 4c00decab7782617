import LiveMarkup.Expr.Error
import LiveMarkup.Text.Scan
import LiveMarkup.Text.Word

/-!
# Reading tokens

At each place that is no blank the longest token is read.  A scanner of one class of tokens returns
the text that it takes and the text that it leaves.
-/

namespace LiveMarkup

open Text

/-- Whether a character separates tokens. -/
def isTokenBlank (c : Char) : Bool :=
  c = ' ' || c = '\t' || c = '\n' || c = '\r'

/-- The inside of a string and its closing quote.  A backslash takes the next character along, which
must not end the line. -/
def scanQuoted (quote : Char) : List Char → Option (List Char × List Char)
  | [] => none
  | '\\' :: c :: cs =>
    if c = '\n' then none
    else (scanQuoted quote cs).map fun (a, b) => ('\\' :: c :: a, b)
  | c :: cs =>
    if c = quote then some ([c], cs)
    else if c = '\\' then none
    else (scanQuoted quote cs).map fun (a, b) => (c :: a, b)

/-- The sign at the start of a text, if there is one. -/
def scanSign : List Char → List Char × List Char
  | '+' :: cs => (['+'], cs)
  | '-' :: cs => (['-'], cs)
  | cs => ([], cs)

/-- The exponent of a number, which is taken only if it has a digit. -/
def scanExponent : List Char → List Char × List Char
  | [] => ([], [])
  | e :: cs =>
    if e = 'e' || e = 'E' then
      let (sign, ds) := scanSign cs
      match ds.takeWhile Char.isDigit with
      | [] => ([], e :: cs)
      | digits => (e :: sign ++ digits, ds.dropWhile Char.isDigit)
    else ([], e :: cs)

/-- The fraction of a number, which is taken only if it has a digit. -/
def scanFraction : List Char → List Char × List Char
  | '.' :: cs =>
    match cs.takeWhile Char.isDigit with
    | [] => ([], '.' :: cs)
    | digits => ('.' :: digits, cs.dropWhile Char.isDigit)
  | cs => ([], cs)

/-- A number: digits with or without a fraction, or a fraction alone, and perhaps an exponent. -/
def scanNumber (cs : List Char) : Option (List Char × List Char) :=
  let whole := cs.takeWhile Char.isDigit
  let (fraction, rest) := scanFraction (cs.dropWhile Char.isDigit)
  if whole = [] && fraction = [] then none
  else
    let (exponent, rest) := scanExponent rest
    some (whole ++ fraction ++ exponent, rest)

/-- The longest symbol. -/
def scanSymbol (cs : List Char) : Option (Symbol × List Char) :=
  Symbol.all.findSome? fun s => (after? s.spelling.toList cs).map (s, ·)

/-- A word as a token: reserved, or else a name. -/
def Token.ofWord (word : List Char) : Token :=
  let word := String.ofList word
  match Reserved.ofSpelling? word with
  | some r => .reserved r
  | none => .ident word

/-- The token at the start of a text, and the text after it. -/
def scanToken : List Char → Option (Token × List Char)
  | [] => none
  | c :: cs =>
    if isIdentStart c then
      some (.ofWord (c :: cs.takeWhile isIdentRest), cs.dropWhile isIdentRest)
    else if c = '"' || c = '\'' then
      (scanQuoted c cs).map fun (a, rest) => (.string (String.ofList (c :: a)), rest)
    else
      match scanNumber (c :: cs) with
      | some (spelling, rest) => some (.number (String.ofList spelling), rest)
      | none => (scanSymbol (c :: cs)).map fun (s, rest) => (.symbol s, rest)

/-- The tokens of a text that starts at a given byte.  Each round reads a token. -/
def lexFrom : Nat → Nat → List Char → Except ExprError (List Lexeme)
  | 0, _, _ => .ok []
  | fuel + 1, pos, cs =>
    let start := pos + byteLength (cs.takeWhile isTokenBlank)
    match cs.dropWhile isTokenBlank with
    | [] => .ok []
    | cs =>
      match scanToken cs with
      | none => .error (.unexpectedCharacter start)
      | some (token, rest) => do
        let stop := start + byteLength token.spelling.toList
        return ⟨token, start, stop⟩ :: (← lexFrom fuel stop rest)

/-- The tokens of an expression. -/
def tokenize (source : List Char) : Except ExprError (List Lexeme) :=
  lexFrom (source.length + 1) 0 source

/-- The characters that the inside of a string stands for. -/
def unescapeQuoted : List Char → List Char
  | [] => []
  | '\\' :: 'n' :: cs => '\n' :: unescapeQuoted cs
  | '\\' :: 't' :: cs => '\t' :: unescapeQuoted cs
  | '\\' :: 'r' :: cs => '\r' :: unescapeQuoted cs
  | '\\' :: c :: cs => c :: unescapeQuoted cs
  | c :: cs => c :: unescapeQuoted cs

/-- The string that a string token stands for. -/
def unquote (spelling : String) : String :=
  String.ofList (unescapeQuoted (spelling.toList.drop 1).dropLast)

end LiveMarkup
