/-!
# Finite numbers as binary fractions

A finite double is `mantissa · 2 ^ exponent`, up to its sign.  All that depends on digits is
computed on these two integers.
-/

namespace LiveMarkup.Decimal

/-- The double that stands for no number. -/
def nan : Float := 0.0 / 0.0

/-- The double above all finite ones. -/
def infinity : Float := 1.0 / 0.0

/-- A finite double without its sign. -/
structure Binary where
  mantissa : Nat
  exponent : Int
  /-- The gap to the next smaller double is half the gap to the next larger one. -/
  narrowBelow : Bool
  deriving DecidableEq

/-- The magnitude held in the bits of a finite double. -/
def Binary.ofBits (bits : UInt64) : Binary :=
  let e := ((bits >>> 52) &&& 0x7FF).toNat
  let f := (bits &&& 0xFFFFFFFFFFFFF).toNat
  if e = 0 then ⟨f, -1074, false⟩ else ⟨Nat.pow 2 52 + f, (e : Int) - 1075, f = 0 && 1 < e⟩

/-- The magnitude of a finite double. -/
def Binary.ofFloat (x : Float) : Binary :=
  .ofBits x.toBits

/-- Whether the sign bit of a double is set. -/
def isNegative (x : Float) : Bool :=
  x.toBits >>> 63 = 1

/-- The number as a quotient of two naturals. -/
def Binary.quotient (x : Binary) : Nat × Nat :=
  (x.mantissa * Nat.pow 2 x.exponent.toNat, Nat.pow 2 (-x.exponent).toNat)

/-- The double `m · 2 ^ e`, for a mantissa below `2 ^ 53`. -/
def scaled (m : Nat) (e : Int) : Float :=
  (Float.ofNat m).scaleB e

/-- What is left of one magnitude after taking another away as often as it fits. -/
def Binary.remainder (x y : Binary) : Float :=
  let e := min x.exponent y.exponent
  let a := x.mantissa * Nat.pow 2 (x.exponent - e).toNat
  let b := y.mantissa * Nat.pow 2 (y.exponent - e).toNat
  if a < b then scaled x.mantissa x.exponent else scaled (a % b) e

/-- The remainder of a division that rounds toward zero: it has the sign of the dividend, and is
exact. -/
def remainder (x y : Float) : Float :=
  if x.isNaN || y.isNaN || x.isInf || y == 0 then nan
  else if y.isInf || x == 0 then x
  else
    let r := (Binary.ofFloat x).remainder (Binary.ofFloat y)
    if isNegative x then -r else r

/-- Whether a double is a whole number. -/
def isWhole (x : Float) : Bool :=
  let (a, b) := (Binary.ofFloat x).quotient
  x.isFinite && a % b = 0

/-- A whole double as an integer. -/
def toInt (x : Float) : Int :=
  let (a, b) := (Binary.ofFloat x).quotient
  if isNegative x then -(a / b : Nat) else (a / b : Nat)

end LiveMarkup.Decimal
