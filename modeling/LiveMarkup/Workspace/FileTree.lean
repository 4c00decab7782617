import LiveMarkup.Workspace.Host

/-!
# Files in memory

A tree of files is listed by the names that lead from the root to each entry.  A path is looked up
name by name: all but the last must lead to directories.  With the lines that were printed, a tree
of files is a host of its own (`Machine.host`).
-/

namespace LiveMarkup

open Text

/-- An entry of a tree of files. -/
inductive Entry where
  | file (text : String)
  | directory
  deriving DecidableEq, Inhabited

/-- The kind of an entry. -/
def Entry.kind : Entry → EntryKind
  | file _ => .file
  | directory => .directory

/-- The names that lead to an entry. -/
abbrev Location := List (List Char)

/-- Files and directories by location; the root is a directory without being listed. -/
abbrev FileTree := List (Location × Entry)

namespace FileTree

/-- The entry at a location. -/
def at? (t : FileTree) (l : Location) : Option Entry :=
  if l = [] then some .directory else t.lookup l

/-- A tree with an entry at a location. -/
def set (t : FileTree) (l : Location) (e : Entry) : FileTree :=
  t.filter (fun (k, _) => k ≠ l) ++ [(l, e)]

/-- Where a piece of a path leads from a location. -/
def Location.step (l : Location) (piece : List Char) : Location :=
  if piece = [] || piece = ['.'] then l
  else if piece = ['.', '.'] then l.dropLast
  else l ++ [piece]

/-- The number of bytes that a name may have. -/
def nameLimit : Nat := 255

/-- The number of bytes that a path must not reach. -/
def pathLimit : Nat := 4096

/-- A path that a tree takes, with the pieces between its slashes. -/
def pieces (p : Path) : Except DiskError (List (List Char)) :=
  if '\x00' ∈ p then .error .nulInPath
  else if pathLimit ≤ byteLength p then .error .nameTooLong
  else .ok (splitAt '/' p)

/-- Where pieces of a path lead from a location, through directories only. -/
def resolveFrom (t : FileTree) (l : Location) : List (List Char) → Except DiskError Location
  | [] => .ok l
  | piece :: pieces =>
    match t.at? l with
    | some .directory =>
      if nameLimit < byteLength piece then .error .nameTooLong
      else resolveFrom t (Location.step l piece) pieces
    | some (.file _) => .error .notDirectory
    | none => .error .notFound

/-- Where a path leads. -/
def resolve (t : FileTree) (p : Path) : Except DiskError Location := do
  t.resolveFrom [] (← pieces p)

/-- What stands at a path. -/
def kind? (t : FileTree) (p : Path) : Option EntryKind :=
  match t.resolve p with
  | .ok l => (t.at? l).map Entry.kind
  | .error _ => none

/-- The text of the file at a path. -/
def read (t : FileTree) (p : Path) : Except DiskError String := do
  match t.at? (← t.resolve p) with
  | some (.file text) => .ok text
  | some .directory => .error .isDirectory
  | none => .error .notFound

/-- A tree with a file written. -/
def write (t : FileTree) (p : Path) (text : String) : Except DiskError FileTree := do
  let l ← t.resolve p
  match t.at? l with
  | some .directory => .error .isDirectory
  | _ => .ok (t.set l (.file text))

/-- A tree with directories made for pieces of a path. -/
def makeFrom (t : FileTree) (l : Location) : List (List Char) → Except DiskError FileTree
  | [] => .ok t
  | piece :: pieces =>
    let l := Location.step l piece
    match t.at? l with
    | some .directory => makeFrom t l pieces
    | some (.file _) => .error (if pieces = [] then .exists else .notDirectory)
    | none =>
      if nameLimit < byteLength piece then .error .nameTooLong
      else makeFrom (t.set l .directory) l pieces

/-- A tree with the directories of a path. -/
def makeDirectories (t : FileTree) (p : Path) : Except DiskError FileTree := do
  t.makeFrom [] (← pieces p)

/-- The path of an entry below a directory. -/
def pathBelow (p : Path) (names : Location) : Path :=
  names.foldl Path.join p

/-- The paths of all that stands below a path, and the path. -/
def below (t : FileTree) (p : Path) : List Path :=
  match t.resolve p with
  | .error _ => []
  | .ok l => p :: t.filterMap fun (k, _) =>
    if l.isPrefixOf k && k ≠ l then some (pathBelow p (k.drop l.length)) else none

end FileTree

/-- Files in memory and the lines that were printed, the latest last. -/
structure Machine where
  files : FileTree := []
  output : List String := []
  warnings : List String := []
  deriving Inhabited

namespace Machine

/-- The outcome of an operation that may change the files. -/
def change (f : FileTree → Except DiskError FileTree) : StateM Machine (Except DiskError Unit) :=
  fun s =>
    match f s.files with
    | .ok files => (.ok (), { s with files })
    | .error e => (.error e, s)

/-- A machine as a host. -/
def host : Host (StateM Machine) where
  kind? p := return (← get).files.kind? p
  read p := return (← get).files.read p
  write p text := change (·.write p text)
  makeDirectories p := change (·.makeDirectories p)
  below p := return (← get).files.below p
  print line := modify fun s => { s with output := s.output ++ [line] }
  warn line := modify fun s => { s with warnings := s.warnings ++ [line] }

end Machine

end LiveMarkup
