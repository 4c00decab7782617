import LiveMarkup.Text.Hex

/-!
# The shape of a JSON text

A JSON text is first read for its shape alone: numbers and strings keep their spelling.  What a
spelling means, and whether it means anything, is asked only of the parts that are used, so that a
field nobody asks for may hold any well-formed text.
-/

namespace LiveMarkup.Json

/-- A JSON text by its shape. -/
inductive Raw where
  | null
  | bool (b : Bool)
  | number (spelling : List Char)
  | text (spelling : List Char)
  | array (items : List Raw)
  | object (members : List (List Char × Raw))
  deriving Inhabited

/-- The text after the blanks of JSON. -/
def skipBlanks (cs : List Char) : List Char :=
  cs.dropWhile fun c => c = ' ' || c = '\n' || c = '\t' || c = '\r'

/-- The spelling of a string up to its closing quote, and the text after the quote. -/
def readText : List Char → Option (List Char × List Char)
  | [] => none
  | '"' :: cs => some ([], cs)
  | '\\' :: 'u' :: a :: b :: c :: d :: cs =>
    if [a, b, c, d].all Text.isHex then
      (readText cs).map fun (s, rest) => ('\\' :: 'u' :: a :: b :: c :: d :: s, rest)
    else none
  | '\\' :: e :: cs =>
    if e ∈ ['"', '\\', '/', 'b', 'f', 'n', 'r', 't'] then
      (readText cs).map fun (s, rest) => ('\\' :: e :: s, rest)
    else none
  | c :: cs =>
    if c = '\\' || c.toNat < 0x20 then none
    else (readText cs).map fun (s, rest) => (c :: s, rest)

/-- One digit at least, and the text after the digits. -/
def readDigits (cs : List Char) : Option (List Char × List Char) :=
  match cs.takeWhile Char.isDigit with
  | [] => none
  | ds => some (ds, cs.dropWhile Char.isDigit)

/-- The whole part of a number, which has no zero before another digit. -/
def readWhole (cs : List Char) : Option (List Char × List Char) := do
  let (ds, rest) ← readDigits cs
  if ds.length ≠ 1 && ds.head? = some '0' then none else some (ds, rest)

/-- The spelling of a number, and the text after it. -/
def readNumber (cs : List Char) : Option (List Char × List Char) := do
  let (sign, cs) : List Char × List Char := match cs with
    | '-' :: r => (['-'], r)
    | _ => ([], cs)
  let (whole, cs) ← readWhole cs
  let (fraction, cs) ← match cs with
    | '.' :: r => (readDigits r).map fun (ds, rest) => ('.' :: ds, rest)
    | _ => some ([], cs)
  let (exponent, cs) ← match cs with
    | e :: r =>
      if e = 'e' || e = 'E' then
        match r with
        | '-' :: r => (readDigits r).map fun (ds, rest) => (e :: '-' :: ds, rest)
        | '+' :: r => (readDigits r).map fun (ds, rest) => (e :: '+' :: ds, rest)
        | _ => (readDigits r).map fun (ds, rest) => (e :: ds, rest)
      else some ([], cs)
    | [] => some ([], cs)
  return (sign ++ whole ++ fraction ++ exponent, cs)

mutual

/-- A value, and the text after it. -/
def readValue : Nat → List Char → Option (Raw × List Char)
  | 0, _ => none
  | fuel + 1, cs =>
    match skipBlanks cs with
    | 'n' :: 'u' :: 'l' :: 'l' :: r => some (.null, r)
    | 't' :: 'r' :: 'u' :: 'e' :: r => some (.bool true, r)
    | 'f' :: 'a' :: 'l' :: 's' :: 'e' :: r => some (.bool false, r)
    | '"' :: r => (readText r).map fun (s, rest) => (.text s, rest)
    | '[' :: r =>
      match skipBlanks r with
      | ']' :: r => some (.array [], r)
      | r => (readItems fuel r).map fun (items, rest) => (.array items, rest)
    | '{' :: r =>
      match skipBlanks r with
      | '}' :: r => some (.object [], r)
      | r => (readMembers fuel r).map fun (members, rest) => (.object members, rest)
    | r => (readNumber r).map fun (s, rest) => (.number s, rest)

/-- One item of an array or more, up to the closing bracket. -/
def readItems : Nat → List Char → Option (List Raw × List Char)
  | 0, _ => none
  | fuel + 1, cs => do
    let (item, r) ← readValue fuel cs
    match skipBlanks r with
    | ']' :: r => some ([item], r)
    | ',' :: r => (readItems fuel r).map fun (items, rest) => (item :: items, rest)
    | _ => none

/-- One member of an object or more, up to the closing brace. -/
def readMembers : Nat → List Char → Option (List (List Char × Raw) × List Char)
  | 0, _ => none
  | fuel + 1, cs =>
    match skipBlanks cs with
    | '"' :: r => do
      let (key, r) ← readText r
      match skipBlanks r with
      | ':' :: r => do
        let (value, r) ← readValue fuel r
        match skipBlanks r with
        | '}' :: r => some ([(key, value)], r)
        | ',' :: r =>
          (readMembers fuel r).map fun (members, rest) => ((key, value) :: members, rest)
        | _ => none
      | _ => none
    | _ => none

end

/-! Blanks in front are passed over. -/

theorem skipBlanks_skipBlanks (cs : List Char) : skipBlanks (skipBlanks cs) = skipBlanks cs := by
  unfold skipBlanks
  induction cs with
  | nil => rfl
  | cons c cs ih =>
    rw [List.dropWhile_cons]
    split
    · exact ih
    · next h => exact List.dropWhile_cons_of_neg h

theorem readValue_skipBlanks (fuel : Nat) (cs : List Char) :
    readValue fuel (skipBlanks cs) = readValue fuel cs := by
  cases fuel with
  | zero => simp only [readValue]
  | succ fuel => simp only [readValue, skipBlanks_skipBlanks]

theorem readItems_skipBlanks (fuel : Nat) (cs : List Char) :
    readItems fuel (skipBlanks cs) = readItems fuel cs := by
  cases fuel with
  | zero => simp only [readItems]
  | succ fuel => simp only [readItems, readValue_skipBlanks]

theorem readMembers_skipBlanks (fuel : Nat) (cs : List Char) :
    readMembers fuel (skipBlanks cs) = readMembers fuel cs := by
  cases fuel with
  | zero => simp only [readMembers]
  | succ fuel => simp only [readMembers, skipBlanks_skipBlanks]

/-- The shape of a text that is one JSON value and nothing else.  The fuel suffices because a
call that consumes nothing is followed by one that does. -/
def Raw.read? (text : String) : Option Raw := do
  let cs := text.toList
  let (value, rest) ← readValue (2 * cs.length + 2) cs
  if skipBlanks rest = [] then some value else none

end LiveMarkup.Json
