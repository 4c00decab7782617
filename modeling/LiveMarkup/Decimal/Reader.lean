import LiveMarkup.Decimal.Binary

/-!
# Reading decimals

The grammar of decimal numbers: an optional sign, then digits with an optional point, of which at
least one is present, then an optional exponent; or a word for infinity or for no number, in any
case of letters.  What is read is rounded to the nearest double.
-/

namespace LiveMarkup.Decimal

/-- The value of a sequence of decimal digits. -/
def digitsValue (ds : List Char) : Nat :=
  ds.foldl (fun n d => n * 10 + (d.toNat - '0'.toNat)) 0

/-- The number of decimal digits of a natural number other than zero. -/
def digitCount (n : Nat) : Nat :=
  (Nat.toDigits 10 n).length

/-- The double nearest to `m · 10 ^ e`; what is too large is infinite. -/
def nearest (m : Nat) (e : Int) : Float :=
  let size := (digitCount m : Int) + e
  if m = 0 || size < -400 then 0
  else if 400 < size then infinity
  else Float.ofScientific m (decide (e < 0)) e.natAbs

/-- A sign, if there is one, and the text after it. -/
def readSign : List Char → Bool × List Char
  | '-' :: cs => (true, cs)
  | '+' :: cs => (false, cs)
  | cs => (false, cs)

/-- The exponent that ends a decimal: nothing, or a letter `e`, a sign and digits. -/
def readExponent : List Char → Option Int
  | [] => some 0
  | c :: cs =>
    let (negative, ds) := readSign cs
    if c.toLower = 'e' && ds ≠ [] && ds.all Char.isDigit then
      some (if negative then -(digitsValue ds) else digitsValue ds)
    else none

/-- A decimal without its sign. -/
def readMagnitude? (cs : List Char) : Option Float :=
  let whole := cs.takeWhile Char.isDigit
  let rest := cs.dropWhile Char.isDigit
  let (fraction, rest) : List Char × List Char :=
    match rest with
    | '.' :: r => (r.takeWhile Char.isDigit, r.dropWhile Char.isDigit)
    | _ => ([], rest)
  if whole = [] && fraction = [] then none
  else
    let digits := digitsValue (whole ++ fraction)
    (readExponent rest).map fun e => nearest digits (e - fraction.length)

/-- The number that a text spells, if it spells one. -/
def read? (cs : List Char) : Option Float :=
  let (negative, rest) := readSign cs
  let word := rest.map Char.toLower
  let magnitude? : Option Float :=
    if word = "inf".toList || word = "infinity".toList then some infinity
    else if word = "nan".toList then some nan
    else readMagnitude? rest
  magnitude?.map fun x => if negative then -x else x

end LiveMarkup.Decimal
