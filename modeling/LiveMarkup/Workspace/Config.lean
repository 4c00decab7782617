import LiveMarkup.Json.Decode
import LiveMarkup.Json.Printer
import LiveMarkup.Workspace.Command

/-!
# The configuration of a workspace

A workspace may have a configuration file, a JSON object of which every member may be absent.
-/

namespace LiveMarkup

/-- The configuration of a workspace. -/
structure Config where
  /-- The directory with the templates. -/
  sourceDirectory : String := "src"
  /-- The directory for compiled templates. -/
  outputDirectory : String := "pado/cache"
  /-- References to classes are made to follow the scope of their stylesheet. -/
  scopeClasses : Bool := true
  /-- Accesses to fixed array items are named before an expression is evaluated. -/
  namesItems : Bool := false
  deriving DecidableEq, Inhabited

namespace Config

open Json (Raw)

/-- The name of the configuration file. -/
def fileName : String := "pado.config.json"

/-- A configuration as JSON. -/
def toJson (c : Config) : Json :=
  .object [("srcDir", .string c.sourceDirectory), ("outDir", .string c.outputDirectory),
    ("styleScope", .bool c.scopeClasses), ("rewriteIndices", .bool c.namesItems)]

/-- A field with a value for the case that it is absent. -/
def fieldOr {α : Type} (fields : List (String × Raw)) (name : String) (decode : Raw → Option α)
    (whenAbsent : α) : Option α :=
  match fields.lookup name with
  | some j => decode j
  | none => some whenAbsent

/-- The configuration that a JSON value describes. -/
def ofRaw? (j : Raw) : Option Config := do
  let fields ← j.record? ["srcDir", "outDir", "styleScope", "rewriteIndices"]
  let usual : Config := {}
  return {
    sourceDirectory := ← fieldOr fields "srcDir" Raw.string? usual.sourceDirectory
    outputDirectory := ← fieldOr fields "outDir" Raw.string? usual.outputDirectory
    scopeClasses := ← fieldOr fields "styleScope" Raw.bool? usual.scopeClasses
    namesItems := ← fieldOr fields "rewriteIndices" Raw.bool? usual.namesItems }

/-- The configuration in a text. -/
def read? (text : String) : Option Config := do
  ofRaw? (← Raw.read? text)

/-- The path of the directory with the templates. -/
def sourcePath (c : Config) (directory : Path) : Path :=
  directory.join c.sourceDirectory.toList

/-- The path of the directory for compiled templates. -/
def outputPath (c : Config) (directory : Path) : Path :=
  directory.join c.outputDirectory.toList

/-- The path of the configuration file. -/
def filePath (directory : Path) : Path :=
  directory.join fileName.toList

end Config

/-- The configuration of the workspace in a directory. -/
def Config.load {m : Type → Type} [Monad m] (h : Host m) (directory : Path) : Command m Config := do
  let file := Config.filePath directory
  if ← Command.of (h.has file) then
    Command.ofOption (Config.read? (← Command.ofDisk (h.read file) .disk)) .malformedJson
  else return {}

end LiveMarkup
