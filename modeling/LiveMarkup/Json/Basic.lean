import LiveMarkup.Decimal.Layout
import LiveMarkup.Decimal.Reader
import LiveMarkup.Json.Raw
import LiveMarkup.Keyed

/-!
# JSON values

A JSON value with its numbers and strings understood.  The members of an object are listed in the
order in which they are written; reading lists them by key and keeps the last of equal keys.
-/

namespace LiveMarkup.Json

/-- A number: a whole number of 64 bits, or else a double. -/
inductive Number where
  | integer (n : Int)
  | float (x : Float)
  deriving Inhabited

/-- A number as a double. -/
def Number.toFloat : Number → Float
  | .integer n => if n < 0 then -(Float.ofNat n.natAbs) else Float.ofNat n.natAbs
  | .float x => x

/-- A significand of 64 bits times a power of ten, in double arithmetic: the powers up to
`10 ^ 308` are applied in one step, and what overflows is no number. -/
def scaleByTen (significand : Nat) (exponent : Int) : Option Float :=
  go 20 (Float.ofNat significand) exponent
where
  /-- Each round brings the exponent nearer to zero. -/
  go : Nat → Float → Int → Option Float
    | 0, x, _ => some x
    | fuel + 1, x, e =>
      if e.natAbs ≤ 308 then
        let power := Float.ofScientific 1 false e.natAbs
        if e < 0 then some (x / power)
        else if (x * power).isInf then none else some (x * power)
      else if x == 0 then some x
      else if 0 ≤ e then none
      else go fuel (x / Float.ofScientific 1 false 308) (e + 308)

/-- Digits joined to a significand while it fits into 64 bits, and the digits left over. -/
def takeSignificand : Nat → List Char → Nat × List Char
  | n, [] => (n, [])
  | n, d :: ds =>
    let n' := n * 10 + (d.toNat - '0'.toNat)
    if n' < Nat.pow 2 64 then takeSignificand n' ds else (n, d :: ds)

/-- The number that a spelling stands for.  Digits beyond 64 bits count for their place only. -/
def Number.ofSpelling? (spelling : List Char) : Option Number := do
  let (negative, cs) := Decimal.readSign spelling
  let signed (x : Float) : Number := .float (if negative then -x else x)
  let (significand, dropped) := takeSignificand 0 (cs.takeWhile Char.isDigit)
  let (places, cs) : List Char × List Char := match cs.dropWhile Char.isDigit with
    | '.' :: r => (r.takeWhile Char.isDigit, r.dropWhile Char.isDigit)
    | r => ([], r)
  if places = [] && cs = [] && dropped = [] then
    if negative then
      if significand = 0 || Nat.pow 2 63 < significand then
        return signed (Float.ofNat significand)
      return .integer (-significand)
    return .integer significand
  let (significand, left) := takeSignificand significand places
  let shift : Int := dropped.length - (places.length - left.length : Nat)
  match cs with
  | [] => (scaleByTen significand shift).map signed
  | _ :: r =>
    let (down, ds) := Decimal.readSign r
    let e := Decimal.digitsValue ds
    if Nat.pow 2 31 ≤ e then if significand ≠ 0 && !down then none else return signed 0
    else
      let total := shift + if down then -(e : Int) else e
      (scaleByTen significand (max (-Int.pow 2 31) (min (Int.pow 2 31 - 1) total))).map signed

/-- A character of a string, or a UTF-16 unit written as an escape. -/
inductive Piece where
  | char (c : Char)
  | unit (n : Nat)

/-- The pieces that a spelling stands for. -/
def pieces : List Char → List Piece
  | [] => []
  | '\\' :: 'u' :: a :: b :: c :: d :: cs =>
    .unit (Text.hexNumber [a, b, c, d]) :: pieces cs
  | '\\' :: 'b' :: cs => .char '\x08' :: pieces cs
  | '\\' :: 'f' :: cs => .char '\x0c' :: pieces cs
  | '\\' :: 'n' :: cs => .char '\n' :: pieces cs
  | '\\' :: 'r' :: cs => .char '\r' :: pieces cs
  | '\\' :: 't' :: cs => .char '\t' :: pieces cs
  | '\\' :: c :: cs => .char c :: pieces cs
  | c :: cs => .char c :: pieces cs

/-- The characters of a string; a surrogate that is not half of a pair stands for none. -/
def joinPieces : List Piece → Option (List Char)
  | [] => some []
  | .char c :: ps => (joinPieces ps).map (c :: ·)
  | .unit h :: .unit l :: ps =>
    if 0xD800 ≤ h && h ≤ 0xDBFF then
      if 0xDC00 ≤ l && l ≤ 0xDFFF then
        (joinPieces ps).map (Char.ofNat (0x10000 + (h - 0xD800) * 0x400 + (l - 0xDC00)) :: ·)
      else none
    else if 0xDC00 ≤ h && h ≤ 0xDFFF then none
    else (joinPieces (.unit l :: ps)).map (Char.ofNat h :: ·)
  | .unit n :: ps =>
    if 0xD800 ≤ n && n ≤ 0xDFFF then none else (joinPieces ps).map (Char.ofNat n :: ·)

/-- The string that a spelling stands for. -/
def unescape? (spelling : List Char) : Option String :=
  (joinPieces (pieces spelling)).map String.ofList

end LiveMarkup.Json

namespace LiveMarkup

open Json

/-- A JSON value. -/
inductive Json where
  | null
  | bool (b : Bool)
  | number (n : Number)
  | string (s : String)
  | array (items : List Json)
  | object (members : List (String × Json))
  deriving Inhabited

/-- The natural number `n` as a JSON number. -/
def Json.nat (n : Nat) : Json := .number (.integer n)

namespace Json

/-- The value of a member, by its key. -/
def get? : Json → String → Option Json
  | .object members, key => members.lookup key
  | _, _ => none

mutual

/-- A value understood, with at most `depth` arrays and objects around any part of it. -/
def ofRaw? (depth : Nat) : Raw → Option Json
  | .null => some .null
  | .bool b => some (.bool b)
  | .number s => (Number.ofSpelling? s).map .number
  | .text s => (unescape? s).map .string
  | .array items => if depth = 0 then none else (itemsOfRaw? (depth - 1) items).map .array
  | .object members =>
    if depth = 0 then none
    else (membersOfRaw? (depth - 1) members).map fun pairs =>
      .object (pairs.foldl (fun acc (k, v) => insertByKey k v acc) [])

/-- The items of an array, understood. -/
def itemsOfRaw? (depth : Nat) : List Raw → Option (List Json)
  | [] => some []
  | item :: items => do return (← ofRaw? depth item) :: (← itemsOfRaw? depth items)

/-- The members of an object, understood, in the order of the text. -/
def membersOfRaw? (depth : Nat) : List (List Char × Raw) → Option (List (String × Json))
  | [] => some []
  | (key, value) :: members => do
    return (← unescape? key, ← ofRaw? depth value) :: (← membersOfRaw? depth members)

end

/-- The nesting that a reader of values accepts. -/
def maxDepth : Nat := 127

/-- The value of a JSON text. -/
def read? (text : String) : Option Json := do
  ofRaw? maxDepth (← Raw.read? text)

end Json

end LiveMarkup
