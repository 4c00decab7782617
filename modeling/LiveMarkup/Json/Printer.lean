import LiveMarkup.Json.Basic

/-!
# Writing JSON

Two layouts of the same value: one line without blanks, and one member or item a line with an
indentation of two blanks.
-/

namespace LiveMarkup.Json

/-- Doubles between `1e-5` and `1e16` are written in positional notation, and keep a point. -/
def numbers : Decimal.Layout := ⟨some (-5, 16), true, .even⟩

/-- A number, written out; what has no digits is `null`. -/
def Number.write : Number → List Char
  | .integer n => Decimal.intNumeral n
  | .float x => if x.isFinite then numbers.write x else "null".toList

/-- A character inside a string. -/
def escapeChar (c : Char) : List Char :=
  match c with
  | '"' => ['\\', '"']
  | '\\' => ['\\', '\\']
  | '\x08' => ['\\', 'b']
  | '\x0c' => ['\\', 'f']
  | '\n' => ['\\', 'n']
  | '\r' => ['\\', 'r']
  | '\t' => ['\\', 't']
  | c =>
    if c.toNat < 0x20 then
      ['\\', 'u', '0', '0', Text.hexDigit (c.toNat / 16), Text.hexDigit (c.toNat % 16)]
    else [c]

/-- A string in quotes. -/
def quote (s : String) : List Char :=
  '"' :: s.toList.flatMap escapeChar ++ ['"']

mutual

/-- A value in one line. -/
def compactChars : Json → List Char
  | .null => "null".toList
  | .bool b => if b then "true".toList else "false".toList
  | .number n => n.write
  | .string s => quote s
  | .array items => '[' :: compactItems items ++ [']']
  | .object members => '{' :: compactMembers members ++ ['}']

/-- Items with commas between them. -/
def compactItems : List Json → List Char
  | [] => []
  | [item] => compactChars item
  | item :: items => compactChars item ++ ',' :: compactItems items

/-- Members with commas between them. -/
def compactMembers : List (String × Json) → List Char
  | [] => []
  | [(key, value)] => quote key ++ ':' :: compactChars value
  | (key, value) :: members =>
    quote key ++ ':' :: compactChars value ++ ',' :: compactMembers members

end

/-- A value in one line. -/
def compact (j : Json) : String :=
  String.ofList (compactChars j)

/-- A line break and the blanks before a line at a given depth. -/
def newLine (depth : Nat) : List Char :=
  '\n' :: List.replicate (2 * depth) ' '

mutual

/-- A value at a given depth, one item a line. -/
def prettyChars (depth : Nat) : Json → List Char
  | .array [] => ['[', ']']
  | .array items => '[' :: prettyItems (depth + 1) items ++ newLine depth ++ [']']
  | .object [] => ['{', '}']
  | .object members => '{' :: prettyMembers (depth + 1) members ++ newLine depth ++ ['}']
  | .null => "null".toList
  | .bool b => if b then "true".toList else "false".toList
  | .number n => n.write
  | .string s => quote s

/-- Items, each on a line of its own. -/
def prettyItems (depth : Nat) : List Json → List Char
  | [] => []
  | [item] => newLine depth ++ prettyChars depth item
  | item :: items => newLine depth ++ prettyChars depth item ++ ',' :: prettyItems depth items

/-- Members, each on a line of its own. -/
def prettyMembers (depth : Nat) : List (String × Json) → List Char
  | [] => []
  | [(key, value)] => newLine depth ++ quote key ++ ':' :: ' ' :: prettyChars depth value
  | (key, value) :: members =>
    newLine depth ++ quote key ++ ':' :: ' ' :: prettyChars depth value ++
      ',' :: prettyMembers depth members

end

/-! The layout with one item a line, case by case. -/

section Layout

variable (depth : Nat)

theorem prettyChars_null : prettyChars depth .null = ['n', 'u', 'l', 'l'] :=
  rfl

theorem prettyChars_true : prettyChars depth (.bool true) = ['t', 'r', 'u', 'e'] :=
  rfl

theorem prettyChars_false : prettyChars depth (.bool false) = ['f', 'a', 'l', 's', 'e'] :=
  rfl

theorem prettyChars_string (s : String) : prettyChars depth (.string s) = quote s :=
  rfl

theorem prettyChars_array_nil : prettyChars depth (.array []) = ['[', ']'] :=
  rfl

theorem prettyChars_array_cons (item : Json) (items : List Json) :
    prettyChars depth (.array (item :: items)) =
      '[' :: (prettyItems (depth + 1) (item :: items) ++ newLine depth ++ [']']) :=
  rfl

theorem prettyChars_object_nil : prettyChars depth (.object []) = ['\x7b', '\x7d'] :=
  rfl

theorem prettyChars_object_cons (member : String × Json) (members : List (String × Json)) :
    prettyChars depth (.object (member :: members)) =
      '\x7b' :: (prettyMembers (depth + 1) (member :: members) ++ newLine depth ++ ['\x7d']) :=
  rfl

theorem prettyItems_singleton (item : Json) :
    prettyItems depth [item] = newLine depth ++ prettyChars depth item :=
  rfl

theorem prettyItems_cons_cons (item next : Json) (items : List Json) :
    prettyItems depth (item :: next :: items) =
      newLine depth ++ prettyChars depth item ++ ',' :: prettyItems depth (next :: items) :=
  rfl

theorem prettyMembers_singleton (key : String) (value : Json) :
    prettyMembers depth [(key, value)] =
      newLine depth ++ quote key ++ ':' :: ' ' :: prettyChars depth value :=
  rfl

theorem prettyMembers_cons_cons (key : String) (value : Json) (next : String × Json)
    (members : List (String × Json)) :
    prettyMembers depth ((key, value) :: next :: members) =
      newLine depth ++ quote key ++ ':' :: ' ' :: prettyChars depth value ++
        ',' :: prettyMembers depth (next :: members) :=
  rfl

end Layout

/-- A value with one item a line. -/
def pretty (j : Json) : String :=
  String.ofList (prettyChars 0 j)

end LiveMarkup.Json
