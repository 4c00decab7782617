import LiveMarkup.Decimal.Reader
import LiveMarkup.Text.Hex
import LiveMarkup.Text.Scan

/-!
# Character references

Characters that mean something in markup are written as references such as `&lt;`.  An escaping is
the list of characters that it replaces; whatever is escaped decodes to itself again.
-/

namespace LiveMarkup

open Text

/-- The reference by which a character is written. -/
def referenceOf (c : Char) : List Char :=
  match c with
  | '&' => "&amp;".toList
  | '<' => "&lt;".toList
  | '>' => "&gt;".toList
  | '"' => "&quot;".toList
  | '\'' => "&#39;".toList
  | c => [c]

/-- A text with the characters of a list written as references. -/
def escape (special : List Char) (cs : List Char) : List Char :=
  cs.flatMap fun c => if c ∈ special then referenceOf c else [c]

/-- The escaping of a text between tags. -/
def escapeText : List Char → List Char := escape ['&', '<', '>']

/-- The escaping of an attribute value in double quotes. -/
def escapeAttribute : List Char → List Char := escape ['&', '"', '<', '>']

/-- The escaping of a text that may stand anywhere. -/
def escapeAll : List Char → List Char := escape ['&', '<', '>', '"', '\'']

/-- The escaping of an attribute value that may hold markup characters as they are. -/
def escapeQuote : List Char → List Char := escape ['&', '"']

/-- The digits of a number with an optional plus sign; none if there is no digit. -/
def unsignedDigits? (isDigit : Char → Bool) (cs : List Char) : Option (List Char) :=
  let ds := match cs with
    | '+' :: r => r
    | _ => cs
  if ds ≠ [] && ds.all isDigit then some ds else none

/-- The character with a given code. -/
def charOfCode? (n : Nat) : Option Char :=
  if n.isValidChar then some (Char.ofNat n) else none

/-- The character that a reference names; `name` is the text between `&` and `;`. -/
def decodeReference? (name : List Char) : Option Char :=
  if name = "amp".toList then some '&'
  else if name = "lt".toList then some '<'
  else if name = "gt".toList then some '>'
  else if name = "quot".toList then some '"'
  else if name = "apos".toList then some '\''
  else if name = "nbsp".toList then some '\xa0'
  else
    match name with
    | '#' :: 'x' :: ds | '#' :: 'X' :: ds =>
      (unsignedDigits? isHex ds).bind fun ds => charOfCode? (hexNumber ds)
    | '#' :: ds =>
      (unsignedDigits? Char.isDigit ds).bind fun ds => charOfCode? (Decimal.digitsValue ds)
    | _ => none

/-- The reference after an ampersand: the character, and the text after the semicolon.  The
semicolon stands within ten bytes of the ampersand. -/
def readReference? (cs : List Char) : Option (Char × List Char) :=
  let name := cs.takeWhile (· ≠ ';')
  match cs.dropWhile (· ≠ ';') with
  | [] => none
  | _ :: rest =>
    if byteLength name < 10 then (decodeReference? name).map (·, rest) else none

/-- A text with its references decoded; what names no character stays.  Each round passes over a
reference or a character. -/
def decodeFrom : Nat → List Char → List Char
  | 0, cs => cs
  | _ + 1, [] => []
  | fuel + 1, c :: cs =>
    if c = '&' then
      match readReference? cs with
      | some (decoded, rest) => decoded :: decodeFrom fuel rest
      | none => c :: decodeFrom fuel cs
    else c :: decodeFrom fuel cs

/-- A text with its references decoded. -/
def decodeEntities (cs : List Char) : List Char :=
  decodeFrom cs.length cs

end LiveMarkup
