import LiveMarkup.Workspace.Path

/-!
# What a command needs around it

A command reads and writes files and prints lines.  It does so through a host, which is a record of
these operations in some monad: the commands are the same functions whether the host is a machine or
a tree of files in memory.
-/

namespace LiveMarkup

/-- Why an operation on files failed. -/
inductive DiskError where
  | notFound
  | exists
  | notDirectory
  | isDirectory
  | nameTooLong
  | nulInPath
  | notText
  | other (message : String)
  deriving DecidableEq, Inhabited

/-- An error in the words of the system. -/
def DiskError.message : DiskError → String
  | notFound => "No such file or directory (os error 2)"
  | «exists» => "File exists (os error 17)"
  | notDirectory => "Not a directory (os error 20)"
  | isDirectory => "Is a directory (os error 21)"
  | nameTooLong => "File name too long (os error 36)"
  | nulInPath => "file name contained an unexpected NUL byte"
  | notText => "stream did not contain valid UTF-8"
  | other message => message

/-- What may stand at a path. -/
inductive EntryKind where
  | file
  | directory
  deriving DecidableEq, Inhabited

/-- Files and a place for lines of text. -/
structure Host (m : Type → Type) where
  /-- What stands at a path, if anything does. -/
  kind? : Path → m (Option EntryKind)
  /-- The text of a file. -/
  read : Path → m (Except DiskError String)
  /-- Makes a file or replaces its text. -/
  write : Path → String → m (Except DiskError Unit)
  /-- Makes a directory and those above it, as far as they are missing. -/
  makeDirectories : Path → m (Except DiskError Unit)
  /-- The paths of all that stands in a directory at any depth, and of itself, in any order. -/
  below : Path → m (List Path)
  print : String → m Unit
  /-- Prints a line about a problem. -/
  warn : String → m Unit

namespace Host

variable {m : Type → Type} [Monad m]

/-- Whether anything stands at a path. -/
def has (h : Host m) (p : Path) : m Bool :=
  return (← h.kind? p).isSome

/-- Whether a file stands at a path. -/
def hasFile (h : Host m) (p : Path) : m Bool :=
  return (← h.kind? p) = some .file

end Host

end LiveMarkup
