import LiveMarkup.Json.Basic

/-!
# Reading records

A record is written as an object, or as the array of its fields in order.  In an object a known
field stands at most once and unknown fields are passed over; an array may be short, but not
long.
-/

namespace LiveMarkup.Json.Raw

/-- The members of an object that name a known field, each at most once. -/
def knownMembers? (names : List String) : List (List Char × Raw) → Option (List (String × Raw))
  | [] => some []
  | (key, value) :: members => do
    let key ← unescape? key
    let known ← knownMembers? names members
    if key ∈ names then
      if (known.lookup key).isSome then none else return (key, value) :: known
    else return known

/-- The fields of a record, by their names. -/
def record? (names : List String) : Raw → Option (List (String × Raw))
  | .object members => knownMembers? names members
  | .array items => if names.length < items.length then none else some (names.zip items)
  | _ => none

/-- A string. -/
def string? : Raw → Option String
  | .text s => unescape? s
  | _ => none

/-- A truth value. -/
def bool? : Raw → Option Bool
  | .bool b => some b
  | _ => none

/-- The items of an array. -/
def items? : Raw → Option (List Raw)
  | .array items => some items
  | _ => none

/-- A field that may be absent or `null`. -/
def optional? {α : Type} (decode : Raw → Option α) : Option Raw → Option (Option α)
  | none | some .null => some none
  | some value => (decode value).map some

/-- One of several words: a string, or an object with the word as its key and `null` as its
value. -/
def word? : Raw → Option String
  | .text s => unescape? s
  | .object [(key, .null)] => unescape? key
  | _ => none

end LiveMarkup.Json.Raw
