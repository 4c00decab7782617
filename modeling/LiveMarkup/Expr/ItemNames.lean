import LiveMarkup.Text.Scan
import LiveMarkup.Text.Word
import LiveMarkup.Value.Scope

/-!
# Naming array items

Where an expression reads a fixed item of an array, as in `name[3]`, the access can be replaced by a
name of its own, `__temp_name_3`, bound to that item.  Only names that mean an array are treated,
and only where they stand alone: not after a dot, and not at the end of a longer name.
-/

namespace LiveMarkup

open Text

/-- An access `name[digits]` at the start of a text: the name, the digits, and the text after it. -/
def scanFixedAccess (cs : List Char) : Option (List Char × List Char × List Char) :=
  match cs with
  | [] => none
  | c :: _ =>
    if isNameStart c then
      match cs.dropWhile isNameRest with
      | '[' :: rest =>
        let digits := rest.takeWhile Char.isDigit
        match rest.dropWhile Char.isDigit with
        | ']' :: rest => if digits = [] then none else some (cs.takeWhile isNameRest, digits, rest)
        | _ => none
      | _ => none
    else none

/-- Whether a name that follows a character is part of something longer. -/
def attaches (previous : Option Char) : Bool :=
  match previous with
  | some c => c = '.' || c = '$' || c = '_' || isAlphanumeric c
  | none => false

/-- The name of an array item. -/
def itemName (name : List Char) (position : Nat) : String :=
  String.ofList ("__temp_".toList ++ name ++ '_' :: Decimal.numeral position)

/-- The item that an access reads and the name for it, if the access is to be replaced. -/
def namedItem? (scope : Scope) (name digits : List Char) : Option (String × Value) := do
  let items ← (← scope.find? (String.ofList name)).items?
  let position ← Value.readPosition? digits
  return (itemName name position, items[position]?.getD .undefined)

/-- The text with its accesses replaced, and the names that were introduced.  Each round passes
over one character or one access. -/
def nameItemsFrom (scope : Scope) :
    Nat → Option Char → List (String × Value) → List Char → List Char × List (String × Value)
  | 0, _, bound, cs => (cs, bound)
  | _ + 1, _, bound, [] => ([], bound)
  | fuel + 1, previous, bound, c :: cs =>
    match scanFixedAccess (c :: cs) with
    | none =>
      let (out, bound) := nameItemsFrom scope fuel (some c) bound cs
      (c :: out, bound)
    | some (name, digits, rest) =>
      match if attaches previous then none else namedItem? scope name digits with
      | none =>
        let (out, bound) := nameItemsFrom scope fuel (some ']') bound rest
        (name ++ '[' :: digits ++ ']' :: out, bound)
      | some (temp, item) =>
        let bound := if (bound.lookup temp).isSome then bound else bound ++ [(temp, item)]
        let (out, bound) := nameItemsFrom scope fuel (some ']') bound rest
        (temp.toList ++ out, bound)

/-- An expression with its accesses to fixed array items replaced by names, and these names. -/
def nameItems (scope : Scope) (source : List Char) : List Char × List (String × Value) :=
  nameItemsFrom scope (source.length + 1) none [] source

end LiveMarkup
