import LiveMarkup.Text.Scan

/-!
# Paths

A path is a text whose components are separated by slashes.  Empty components and single dots count
for nothing, except for a dot at the very start.  The functions here look at the text alone, not at
what is stored under a path.
-/

namespace LiveMarkup

/-- A path. -/
abbrev Path := List Char

namespace Path

/-- A component of a path. -/
inductive Component where
  | root
  | current
  | parent
  | name (cs : List Char)
  deriving DecidableEq

/-- A component as text. -/
def Component.text : Component → String
  | root => "/"
  | current => "."
  | parent => ".."
  | name cs => String.ofList cs

/-- A path without the slashes and dots before its next component.  Since the rule is the same from
both ends, it also serves for reversed paths. -/
def skip : Path → Path
  | '/' :: cs => skip cs
  | ['.'] => []
  | '.' :: '/' :: cs => skip cs
  | cs => cs

/-- A path without the slashes and dots after its last component. -/
def skipBack (p : Path) : Path :=
  (skip p.reverse).reverse

/-- What a path starts with, a slash or a dot of its own, and the rest. -/
def cutStart : Path → Path × Path
  | '/' :: cs => (['/'], cs)
  | ['.'] => (['.'], [])
  | '.' :: '/' :: cs => (['.'], '/' :: cs)
  | cs => ([], cs)

/-- The component that a start stands for. -/
def startComponent : Path → List Component
  | ['/'] => [.root]
  | ['.'] => [.current]
  | _ => []

/-- The components of a path that has lost its start.  Each round takes one. -/
def namesFrom : Nat → Path → List Component
  | 0, _ => []
  | fuel + 1, p =>
    match skip p with
    | [] => []
    | p =>
      let name := p.takeWhile (· ≠ '/')
      (if name = ['.', '.'] then .parent else .name name) ::
        namesFrom fuel (p.dropWhile (· ≠ '/'))

/-- The components of a path. -/
def components (p : Path) : List Component :=
  let (start, rest) := cutStart p
  startComponent start ++ namesFrom rest.length rest

/-- Whether a path does not depend on where it is looked up. -/
def isAbsolute (p : Path) : Bool :=
  p.head? = some '/'

/-- A path taken from another one on. -/
def join (base p : Path) : Path :=
  if isAbsolute p then p
  else if base = [] || base.getLast? = some '/' then base ++ p
  else base ++ '/' :: p

/-- A path without a number of components at its start, the start itself left aside. -/
def dropNames : Nat → Path → Path
  | 0, p => skip p
  | n + 1, p => dropNames n ((skip p).dropWhile (· ≠ '/'))

/-- The rest of a path whose first components are those of a base. -/
def stripBase? (base p : Path) : Option Path :=
  let taken := components base
  if taken.isPrefixOf (components p) then
    let (start, rest) := cutStart p
    if taken = [] then some (start ++ skipBack rest)
    else some (skipBack (dropNames (taken.length - (startComponent start).length) rest))
  else none

/-- The path of the directory that a path lies in. -/
def parent? (p : Path) : Option Path :=
  let (start, rest) := cutStart p
  match skip rest.reverse with
  | [] => if start = ['.'] then some [] else none
  | backward => some (start ++ (skip (backward.dropWhile (· ≠ '/'))).reverse)

/-- The last component of a path, if it is a name. -/
def fileName? (p : Path) : Option (List Char) :=
  match (components p).getLast? with
  | some (.name cs) => some cs
  | _ => none

/-- A name cut at its last dot; a dot at the start does not count. -/
def cutExtension (name : List Char) : List Char × Option (List Char) :=
  let after := (name.reverse.takeWhile (· ≠ '.')).reverse
  match (name.reverse.dropWhile (· ≠ '.')).drop 1 with
  | [] => (name, none)
  | before => (before.reverse, some after)

/-- The extension of the file name of a path. -/
def extension? (p : Path) : Option (List Char) :=
  (fileName? p).bind fun name => (cutExtension name).2

/-- A path with an extension set on its file name, if it has one. -/
def setExtension (p : Path) (extension : List Char) : Path :=
  match fileName? p with
  | none => p
  | some name =>
    let p := skipBack p
    p.take (p.length - name.length) ++ (cutExtension name).1 ++ '.' :: extension

/-- A path with the extension of its file name replaced or added.  The old extension goes first, and
if two dots are left, they lead to the parent and name no file: nothing is added to them. -/
def withExtension (p : Path) (extension : List Char) : Path :=
  setExtension (p.take (p.length - ((extension? p).getD []).length)) extension

/-- Paths in the order of their components. -/
def sort (ps : List Path) : List Path :=
  let key (p : Path) : List String := (components p).map Component.text
  ps.mergeSort fun p q => !decide (key q < key p)

end Path

end LiveMarkup
