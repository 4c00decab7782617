import LiveMarkup.Text.Quoted
import LiveMarkup.Workspace.Host

/-!
# Commands

A command does its work on a host and may fail.  Whatever it printed and wrote before it failed
stays.
-/

namespace LiveMarkup

/-- Why a command failed. -/
inductive CommandError where
  | missingSource (p : Path)
  | unreadableTemplate (p : Path)
  | invalidTemplate (p : Path)
  | unreadableState (p : Path)
  | stateNotObject (p : Path)
  | malformedJson
  | disk (e : DiskError)
  /-- The header of a directive in a template does not end before its block. -/
  | headerPastEnd
  deriving DecidableEq, Inhabited

/-- An error in words. -/
def CommandError.message : CommandError → String
  | missingSource p => "Source path does not exist: " ++ String.ofList (Text.quoted p)
  | unreadableTemplate p => "Cannot read template " ++ String.ofList p
  | invalidTemplate p => "Invalid artifact " ++ String.ofList p
  | unreadableState p => "Cannot read state file " ++ String.ofList p
  | stateNotObject p => s!"State file {String.ofList p} must contain a JSON object"
  | malformedJson => "Malformed JSON"
  | disk e => e.message
  | headerPastEnd => "The header of a directive runs past its block"

/-- What a command does in a monad. -/
abbrev Command (m : Type → Type) (α : Type) := ExceptT CommandError m α

namespace Command

variable {m : Type → Type} [Monad m]

/-- A command that does something on its host. -/
def of {α : Type} (x : m α) : Command m α :=
  ExceptT.lift x

/-- A command that needs something of its disk, and what it fails with if that goes wrong. -/
def ofDisk {α : Type} (x : m (Except DiskError α)) (error : DiskError → CommandError) :
    Command m α :=
  ExceptT.mk do return (← x).mapError error

/-- A command that needs something that may be missing. -/
def ofOption {α : Type} (x : Option α) (error : CommandError) : Command m α :=
  match x with
  | some a => pure a
  | none => throw error

/-- What goes wrong with the disk in a part of a command, which is not the end of the whole. -/
def attempt (x : Command m Unit) : Command m (Option DiskError) :=
  ExceptT.mk do
    match ← x.run with
    | .ok () => return .ok none
    | .error (.disk e) => return .ok (some e)
    | .error e => return .error e

end Command

end LiveMarkup
