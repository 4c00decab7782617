import LiveMarkup.Workspace.Compile
import LiveMarkup.Workspace.Init
import LiveMarkup.Workspace.Render

/-!
# Commands from the command line

The first argument names a command.  The others are options, some of which take the argument after
them or what follows their sign of equality, and plain arguments.
-/

namespace LiveMarkup

/-- A command with its options. -/
inductive Request where
  | init (o : InitOptions)
  | compile (r : CompileRequest)
  | render (r : RenderRequest)
  deriving DecidableEq

/-- The value of an option that an argument carries itself. -/
def ownValue? (option argument : String) : Option String :=
  (Text.after? (option ++ "=").toList argument.toList).map String.ofList

/-- The value of an option at the start of some arguments, and the arguments after it. -/
def optionValue? (names : List String) : List String → Option (String × List String)
  | [] => none
  | argument :: rest =>
    match names.findSome? fun name => ownValue? name argument with
    | some value => some (value, rest)
    | none =>
      match rest with
      | value :: rest => if argument ∈ names then some (value, rest) else none
      | [] => none

/-- Whether an argument looks like an option. -/
def isOption (argument : String) : Bool :=
  argument ≠ "-" && argument.toList.head? = some '-'

namespace Request

/-- What to say about an argument that a command does not take. -/
def unexpected (argument : String) : String :=
  s!"unexpected argument '{argument}' found"

/-- The options of `init`.  Each round takes an argument at least. -/
def readInit : Nat → InitOptions → List String → Except String InitOptions
  | 0, o, _ => .ok o
  | _ + 1, o, [] => .ok o
  | fuel + 1, o, argument :: rest =>
    if argument = "-f" || argument = "--force" then readInit fuel { o with force := true } rest
    else
      match optionValue? ["-s", "--src-dir"] (argument :: rest) with
      | some (value, rest) => readInit fuel { o with sourceDirectory := value } rest
      | none => .error (unexpected argument)

/-- The options of `compile`.  Each round takes an argument at least. -/
def readCompile : Nat → CompileRequest → List String → Except String CompileRequest
  | 0, r, _ => .ok r
  | _ + 1, r, [] => .ok r
  | fuel + 1, r, argument :: rest =>
    if argument = "--stdout" then readCompile fuel { r with toOutput := true } rest
    else if argument = "--validate" then readCompile fuel { r with checkExpressions := true } rest
    else
      match optionValue? ["-o", "--out-dir"] (argument :: rest) with
      | some (value, rest) => readCompile fuel { r with outputDirectory := some value } rest
      | none =>
        if isOption argument || r.path.isSome then .error (unexpected argument)
        else readCompile fuel { r with path := some argument } rest

/-- The template and the state file of `render`.  Each round takes an argument at least. -/
def readRender : Nat → Option String → Option String → List String → Except String RenderRequest
  | 0, _, _, _ => .error "a template is required"
  | _ + 1, none, _, [] => .error "a template is required"
  | _ + 1, some template, state, [] => .ok { template, state }
  | fuel + 1, template, state, argument :: rest =>
    match optionValue? ["--vars"] (argument :: rest) with
    | some (value, rest) => readRender fuel template (some value) rest
    | none =>
      if isOption argument || template.isSome then .error (unexpected argument)
      else readRender fuel (some argument) state rest

/-- The command that arguments ask for, or what is wrong with them. -/
def ofArguments (arguments : List String) : Except String Request :=
  match arguments with
  | "init" :: rest => (readInit rest.length {} rest).map init
  | "compile" :: rest => (readCompile rest.length {} rest).map compile
  | "render" :: rest => (readRender (rest.length + 1) none none rest).map render
  | argument :: _ => .error s!"unrecognized subcommand '{argument}'"
  | [] => .error "a command is required: init, compile or render"

/-- Runs a command in a directory. -/
def run {m : Type → Type} [Monad m] (h : Host m) (directory : Path) : Request → Command m Unit
  | init o => h.init directory o
  | compile r => h.compileWorkspace directory r
  | render r => h.render directory r

end Request

end LiveMarkup
