/-!
# Tokens of expressions

Reserved words, names, strings, numbers and symbols.  Strings and numbers keep their spelling, so
that a token tells its text (`Token.spelling`).
-/

namespace LiveMarkup

/-- A word that stands for a value and is no name. -/
inductive Reserved where
  | true
  | false
  | null
  | undefined
  | nan
  | infinity
  deriving DecidableEq

/-- How a reserved word is spelled. -/
def Reserved.spelling : Reserved → String
  | .true => "true"
  | .false => "false"
  | .null => "null"
  | .undefined => "undefined"
  | .nan => "NaN"
  | .infinity => "Infinity"

/-- The reserved words. -/
def Reserved.all : List Reserved :=
  [.true, .false, .null, .undefined, .nan, .infinity]

/-- The reserved word with a given spelling. -/
def Reserved.ofSpelling? (word : String) : Option Reserved :=
  Reserved.all.find? fun r => r.spelling = word

/-- A bracket, a mark or an operator. -/
inductive Symbol where
  | openParen
  | closeParen
  | openBracket
  | closeBracket
  | openBrace
  | closeBrace
  | dot
  | comma
  | question
  | colon
  | plus
  | minus
  | star
  | slash
  | percent
  | bang
  | equal
  | notEqual
  | identical
  | notIdentical
  | less
  | lessEqual
  | greater
  | greaterEqual
  | and
  | or
  | coalesce
  deriving DecidableEq

/-- How a symbol is spelled. -/
def Symbol.spelling : Symbol → String
  | .openParen => "("
  | .closeParen => ")"
  | .openBracket => "["
  | .closeBracket => "]"
  | .openBrace => "\x7b"
  | .closeBrace => "\x7d"
  | .dot => "."
  | .comma => ","
  | .question => "?"
  | .colon => ":"
  | .plus => "+"
  | .minus => "-"
  | .star => "*"
  | .slash => "/"
  | .percent => "%"
  | .bang => "!"
  | .equal => "=="
  | .notEqual => "!="
  | .identical => "==="
  | .notIdentical => "!=="
  | .less => "<"
  | .lessEqual => "<="
  | .greater => ">"
  | .greaterEqual => ">="
  | .and => "&&"
  | .or => "||"
  | .coalesce => "??"

/-- The symbols, the longer ones first, so that the first that fits is the longest. -/
def Symbol.all : List Symbol := [
  .identical, .notIdentical,
  .equal, .notEqual, .lessEqual, .greaterEqual, .and, .or, .coalesce,
  .openParen, .closeParen, .openBracket, .closeBracket, .openBrace, .closeBrace, .dot, .comma,
  .question, .colon, .plus, .minus, .star, .slash, .percent, .bang, .less, .greater]

/-- A token of an expression. -/
inductive Token where
  | reserved (word : Reserved)
  | ident (name : String)
  /-- A string with its quotes and escapes. -/
  | string (spelling : String)
  | number (spelling : String)
  | symbol (s : Symbol)
  deriving DecidableEq

namespace Token

/-- The text of a token in an expression. -/
def spelling : Token → String
  | reserved w => w.spelling
  | ident name => name
  | string s => s
  | number s => s
  | symbol s => s.spelling

/-- A token as messages name it. -/
def describe : Token → String
  | reserved w => w.spelling
  | ident name => "identifier '" ++ name ++ "'"
  | string s => "string " ++ s
  | number s => "number " ++ s
  | symbol s => s.spelling

end Token

/-- A token and the bytes of the text that it takes. -/
structure Lexeme where
  token : Token
  start : Nat
  stop : Nat
  deriving DecidableEq

end LiveMarkup
