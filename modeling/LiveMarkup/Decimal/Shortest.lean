import LiveMarkup.Decimal.Binary

/-!
# The fewest digits that read back

Among the decimals that round to a given double, the ones with the fewest digits are wanted, and of
these the nearest.  The search tries one digit, then two, and so on; with `n` digits only the two
neighbours of the number on the grid of `n`-digit decimals can read back, if any does.
-/

namespace LiveMarkup.Decimal

/-- The number `digits · 10 ^ exponent`. -/
structure Digits where
  digits : Nat
  exponent : Int
  deriving DecidableEq

/-- Which of two equally near candidates is taken. -/
inductive Tie where
  | even
  | up
  deriving DecidableEq

/-- The order of `a · 10 ^ i` and `b · 2 ^ j`. -/
def compareScaled (a : Nat) (i : Int) (b : Nat) (j : Int) : Ordering :=
  compare (a * Nat.pow 10 i.toNat * Nat.pow 2 (-j).toNat)
    (b * Nat.pow 2 j.toNat * Nat.pow 10 (-i).toNat)

/-- Whether a decimal lies among the reals that round to a double, to nearest and ties to even. -/
def Binary.readsBack (x : Binary) (d : Digits) : Bool :=
  let low := 4 * x.mantissa - if x.narrowBelow then 1 else 2
  let atLow := compareScaled d.digits d.exponent low (x.exponent - 2)
  let atHigh := compareScaled d.digits d.exponent (4 * x.mantissa + 2) (x.exponent - 2)
  if x.mantissa % 2 = 0 then atLow != .lt && atHigh != .gt else atLow = .gt && atHigh = .lt

/-- The least `k` with `x < 10 ^ k`, for a number other than zero. -/
def Binary.scale (x : Binary) : Int :=
  let estimate := ((x.mantissa.log2 : Int) + x.exponent) * 30103 / 100000
  let candidates := (List.range 4).map fun i : Nat => estimate + Int.ofNat i
  (candidates.find? fun k => compareScaled 1 k x.mantissa x.exponent = .gt).getD estimate

/-- The nearest decimal with `n` digits that reads back. -/
def Binary.onGrid? (x : Binary) (tie : Tie) (n : Nat) : Option Digits :=
  let e := x.scale - n
  let (a, b) := x.quotient
  let num := a * Nat.pow 10 (-e).toNat
  let den := b * Nat.pow 10 e.toNat
  let below : Digits := ⟨num / den, e⟩
  let above : Digits := ⟨num / den + 1, e⟩
  match x.readsBack below, x.readsBack above with
  | true, false => some below
  | false, true => some above
  | false, false => none
  | true, true =>
    match compare (2 * (num % den)) den with
    | .lt => some below
    | .gt => some above
    | .eq => if tie = .even && below.digits % 2 = 0 then some below else some above

/-- A number without the zeros at the end of its digits. -/
def Digits.strip (d : Digits) : Digits :=
  go d.digits d
where
  /-- Each round drops one zero. -/
  go : Nat → Digits → Digits
    | 0, d => d
    | fuel + 1, d =>
      if d.digits ≠ 0 && d.digits % 10 = 0 then go fuel ⟨d.digits / 10, d.exponent + 1⟩ else d

/-- The fewest digits that read back as a given number; seventeen always do. -/
def Binary.shortest (x : Binary) (tie : Tie) : Digits :=
  if x.mantissa = 0 then ⟨0, 0⟩
  else
    match ((List.range 17).map (· + 1)).findSome? (x.onGrid? tie) with
    | some d => d.strip
    | none =>
      ⟨x.mantissa * Nat.pow 2 x.exponent.toNat * Nat.pow 5 (-x.exponent).toNat, min x.exponent 0⟩

end LiveMarkup.Decimal
