import LiveMarkup.Text.Blank
import LiveMarkup.Text.Scan
import LiveMarkup.Template.Basic

/-!
# Scoped classes

A template and the stylesheet beside it agree on class names of their own: both add an identifier
that is computed from their common path without its extension.  In markup a reference such as
`pado-class="styles.title"` becomes `class="_title_id"`; in a stylesheet the selector `.title`
becomes `._title_id`.
-/

namespace LiveMarkup

open Text

/-- The extensions of the files that share a scope. -/
def scopedExtensions : List String := [".module.scss", ".pado", ".ts"]

/-- A path without its extension, if that is one of a scoped file. -/
def scopeBase (path : List Char) : List Char :=
  match scopedExtensions.findSome? fun e => after? e.toList.reverse path.reverse with
  | some base => base.reverse
  | none => path

/-- The UTF-16 units of a text. -/
def units16 (cs : List Char) : List Nat :=
  cs.flatMap fun c =>
    if c.toNat < 0x10000 then [c.toNat]
    else [0xD800 + (c.toNat - 0x10000) / 0x400, 0xDC00 + (c.toNat - 0x10000) % 0x400]

/-- A hash of a text that fits into a signed word of 32 bits. -/
def wordHash (cs : List Char) : Int :=
  (units16 cs).foldl (fun (h : Int) (u : Nat) => Int.bmod (h * 31 + u) (Nat.pow 2 32)) 0

/-- The digits of a number to the base 36. -/
def base36 (n : Nat) : List Char :=
  go 14 n []
where
  /-- Each round writes a digit. -/
  go : Nat → Nat → List Char → List Char
    | 0, _, out => out
    | fuel + 1, n, out =>
      let d := n % 36
      let c := if d < 10 then Char.ofNat ('0'.toNat + d) else Char.ofNat ('a'.toNat + (d - 10))
      if n < 36 then c :: out else go fuel (n / 36) (c :: out)

/-- The identifier of the scope of a path: at most six digits and letters. -/
def scopeId (path : List Char) : List Char :=
  (base36 (wordHash (scopeBase path)).natAbs).take 6

/-- The name of a class in a scope. -/
def scopedName (name scope : List Char) : List Char :=
  '_' :: name ++ '_' :: scope

/-- How a reference to a class starts in markup. -/
def classReference : List Char := "pado-class=\"".toList

/-- What stands after the last dot of a reference. -/
def lastSegment (reference : List Char) : List Char :=
  trim (((splitAt '.' reference).getLast?).getD [])

/-- Markup with its references to classes replaced.  Each round passes over a reference or a
character. -/
def scopeClassesFrom (scope : List Char) : Nat → List Char → List Char
  | 0, cs => cs
  | _ + 1, [] => []
  | fuel + 1, c :: cs =>
    match after? classReference (c :: cs) with
    | none => c :: scopeClassesFrom scope fuel cs
    | some rest =>
      match rest.takeWhile (· ≠ '"'), rest.dropWhile (· ≠ '"') with
      | [], _ => c :: scopeClassesFrom scope fuel cs
      | _, [] => c :: scopeClassesFrom scope fuel cs
      | reference, _ :: rest =>
        "class=\"".toList ++ scopedName (lastSegment reference) scope ++
          '"' :: scopeClassesFrom scope fuel rest

/-- Markup with its references to classes replaced. -/
def scopeClasses (scope html : List Char) : List Char :=
  scopeClassesFrom scope html.length html

/-- Whether a character can continue a class name in a selector. -/
def isClassRest (c : Char) : Bool :=
  c.isAlphanum || c = '_' || c = '-'

/-- A selector with its classes renamed.  Each round passes over a class or a character. -/
def scopeSelectorFrom (scope : List Char) : Nat → List Char → List Char
  | 0, cs => cs
  | _ + 1, [] => []
  | fuel + 1, '.' :: c :: cs =>
    if c.isAlpha then
      '.' :: scopedName (c :: cs.takeWhile isClassRest) scope ++
        scopeSelectorFrom scope fuel (cs.dropWhile isClassRest)
    else '.' :: scopeSelectorFrom scope fuel (c :: cs)
  | fuel + 1, c :: cs => c :: scopeSelectorFrom scope fuel cs

/-- A selector with its classes renamed. -/
def scopeSelector (scope selector : List Char) : List Char :=
  scopeSelectorFrom scope selector.length selector

/-- A stylesheet with the classes renamed in what stands before its opening braces.  `segment` is
what has been read since the last brace, the last character first. -/
def scopeStylesheetFrom (scope : List Char) (segment : List Char) : List Char → List Char
  | [] => segment.reverse
  | c :: cs =>
    if c = '\x7b' then scopeSelector scope segment.reverse ++ c :: scopeStylesheetFrom scope [] cs
    else if c = '\x7d' then segment.reverse ++ c :: scopeStylesheetFrom scope [] cs
    else scopeStylesheetFrom scope (c :: segment) cs

/-- A stylesheet with the classes of its selectors renamed. -/
def scopeStylesheet (scope css : List Char) : List Char :=
  scopeStylesheetFrom scope [] css

/-- A template with its references to classes replaced everywhere. -/
def Template.scopeClasses (scope : List Char) (t : Template) : Template :=
  let apply (html : String) : String := String.ofList (LiveMarkup.scopeClasses scope html.toList)
  { t with
    html := apply t.html
    conditions := t.conditions.map fun g =>
      { g with blocks := g.blocks.map fun b => { b with content := apply b.content } }
    loops := t.loops.map fun l => { l with content := apply l.content } }

end LiveMarkup
