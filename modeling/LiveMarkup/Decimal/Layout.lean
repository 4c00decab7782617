import LiveMarkup.Decimal.Shortest

/-!
# How numbers are written

A format of numbers is a record of decisions: up to which magnitudes digits stand in their places,
what a whole number shows after the point, how ties are broken, and which words stand for the values
that have no digits.
-/

namespace LiveMarkup.Decimal

/-- The decisions of a number format. -/
structure Layout where
  /-- Exponents of the leading digit that are written in positional notation; all if absent. -/
  positional : Option (Int × Int)
  /-- Whether a whole number in positional notation ends in `.0`. -/
  pointZero : Bool
  tie : Tie

/-- The decimal numeral of a natural number. -/
def numeral (n : Nat) : List Char :=
  Nat.toDigits 10 n

/-- The decimal numeral of an integer. -/
def intNumeral (n : Int) : List Char :=
  if n < 0 then '-' :: numeral n.natAbs else numeral n.natAbs

/-- Digits written in their places, with zeros where the digits do not reach the point. -/
def Layout.places (l : Layout) (d : Digits) : List Char :=
  let ds := numeral d.digits
  if 0 ≤ d.exponent then
    ds ++ List.replicate d.exponent.toNat '0' ++ if l.pointZero then ['.', '0'] else []
  else
    let k := (-d.exponent).toNat
    if k < ds.length then ds.take (ds.length - k) ++ '.' :: ds.drop (ds.length - k)
    else '0' :: '.' :: (List.replicate (k - ds.length) '0' ++ ds)

/-- Digits with a point after the first, times a power of ten. -/
def exponential (d : Digits) : List Char :=
  let ds := numeral d.digits
  let e := d.exponent + ds.length - 1
  ds.take 1 ++ (if ds.length = 1 then [] else '.' :: ds.drop 1) ++
    'e' :: (if e < 0 then '-' else '+') :: numeral e.natAbs

/-- The magnitude of a finite number, written out. -/
def Layout.magnitude (l : Layout) (x : Float) : List Char :=
  let d := (Binary.ofFloat x).shortest l.tie
  let leading := d.exponent + (numeral d.digits).length - 1
  match l.positional with
  | none => l.places d
  | some (low, high) =>
    if d.digits = 0 || (low ≤ leading && leading < high) then l.places d else exponential d

/-- A finite number, written out with its sign; zero keeps its sign too. -/
def Layout.write (l : Layout) (x : Float) : List Char :=
  if isNegative x then '-' :: l.magnitude x else l.magnitude x

/-- Every digit in its place, and nothing after a whole number. -/
def plain : Layout := ⟨none, false, .up⟩

/-- A number in words and plain digits: the fewest that read back, never an exponent. -/
def write (x : Float) : String :=
  if x.isNaN then "NaN"
  else if x.isInf then if isNegative x then "-Infinity" else "Infinity"
  else String.ofList (plain.write x)

end LiveMarkup.Decimal
