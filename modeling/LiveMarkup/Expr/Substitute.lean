import LiveMarkup.Text.Blank
import LiveMarkup.Text.Word

/-!
# Replacing a name in an expression text

A name is replaced where it stands as a word of its own, outside strings and not after a dot.  A
word that starts with a digit is passed over as a whole, so the `e5` of `1e5` is no name.
-/

namespace LiveMarkup

open Text

/-- The inside of a string up to its closing quote, or the whole rest if it is not closed. -/
def scanString (quote : Char) : List Char → List Char × List Char
  | [] => ([], [])
  | '\\' :: c :: cs =>
    let (a, b) := scanString quote cs
    ('\\' :: c :: a, b)
  | c :: cs =>
    if c = quote then ([c], cs)
    else
      let (a, b) := scanString quote cs
      (c :: a, b)

/-- Whether a character continues a word that starts with a digit. -/
def isNumberRest (c : Char) : Bool :=
  isNameRest c || c = '.'

/-- The replacement from some place on, which may come after a dot.  Each round passes over a
string, a word or a character. -/
def substituteFrom (name new : List Char) : Nat → Bool → List Char → List Char
  | 0, _, cs => cs
  | _ + 1, _, [] => []
  | fuel + 1, afterDot, c :: cs =>
    if c = '"' || c = '\'' then
      let (a, rest) := scanString c cs
      c :: a ++ substituteFrom name new fuel false rest
    else if c.isDigit then
      (c :: cs).takeWhile isNumberRest ++
        substituteFrom name new fuel false ((c :: cs).dropWhile isNumberRest)
    else if isIdentStart c then
      let word := (c :: cs).takeWhile isIdentRest
      (if word = name && !afterDot then new else word) ++
        substituteFrom name new fuel false ((c :: cs).dropWhile isIdentRest)
    else if isBlank c then c :: substituteFrom name new fuel afterDot cs
    else c :: substituteFrom name new fuel (c = '.') cs

/-- An expression text with a name replaced by a text. -/
def substitute (name new source : List Char) : List Char :=
  substituteFrom name new source.length false source

end LiveMarkup
