import LiveMarkup.Workspace.Arguments

/-!
# The command line

The machine as a host, and the command that the arguments ask for.
-/

namespace LiveMarkup

/-- What a failed operation of the machine means. -/
def diskError (e : IO.Error) : DiskError :=
  match e with
  | .noFileOrDirectory .. => .notFound
  | .alreadyExists .. => .exists
  | .inappropriateType .. => .isDirectory
  | .userError _ => .notText
  | e => .other e.toString

/-- The outcome of an operation of the machine. -/
def outcome {α : Type} (x : IO α) : IO (Except DiskError α) := do
  try
    return .ok (← x)
  catch e =>
    return .error (diskError e)

/-- Whether an operation of the machine succeeds. -/
def succeeds {α : Type} (x : IO α) : IO Bool :=
  return (← outcome x).toBool

/-- The entries of a directory of the machine. -/
def entriesIn (p : Path) : IO (Array IO.FS.DirEntry) := do
  ((← IO.currentDir) / String.ofList p).readDir

/-- What stands at a path of the machine. -/
def kindAt (p : Path) : IO (Option EntryKind) := do
  if ← succeeds (entriesIn p) then return some .directory
  else if ← succeeds (IO.FS.withFile (String.ofList p) .read fun _ => pure ()) then
    return some .file
  else return none

/-- How deep directories are looked into, so that a link to a directory around it ends. -/
def maxDirectoryDepth : Nat := 255

/-- The paths of all that stands in a directory of the machine, to some depth, and of itself. -/
def allBelow : Nat → Path → IO (List Path)
  | 0, p => return [p]
  | depth + 1, p => do
    match ← outcome (entriesIn p) with
    | .error _ => return [p]
    | .ok entries =>
      let inside ← entries.toList.mapM fun e => allBelow depth (p.join e.fileName.toList)
      return p :: inside.flatten

/-- The machine as a host. -/
def machineHost : Host IO where
  kind? := kindAt
  read p := outcome (IO.FS.readFile (String.ofList p))
  write p text := outcome (IO.FS.writeFile (String.ofList p) text)
  makeDirectories p := outcome (IO.FS.createDirAll (String.ofList p))
  below := allBelow maxDirectoryDepth
  print line := IO.println line
  warn line := IO.eprintln line

/-- Prints what went wrong. -/
def report (message : String) : IO UInt32 := do
  IO.eprintln ""
  IO.eprintln s!"Error: {message}"
  IO.eprintln ""
  return 1

end LiveMarkup

open LiveMarkup in
/-- Runs the command that the arguments ask for in the working directory. -/
def main (arguments : List String) : IO UInt32 := do
  match Request.ofArguments arguments with
  | .error message => report message
  | .ok request =>
    let directory := (← IO.currentDir).toString.toList
    match ← (request.run machineHost directory).run with
    | .ok () => return 0
    | .error e => report e.message
