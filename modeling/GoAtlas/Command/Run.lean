import GoAtlas.Command.Basic
import GoAtlas.Files.Packages
import GoAtlas.Json.Path
import GoAtlas.Json.Read
import GoAtlas.Json.Write
import GoAtlas.Settings.File
import GoAtlas.Settings.Json
import GoAtlas.World.Json

/-!
# Running commands

A run takes a file tree, an environment and arguments, and gives the file tree afterwards
together with how the run ended.  A run that fails has written no file.
-/

namespace GoAtlas

/-- Why a run fails. -/
inductive Failure where
  | fault (fault : Fault)
  /-- A setting cannot be named. -/
  | setting (fault : Json.PathFault)
  /-- A setting cannot have a value. -/
  | unfitValue
  /-- The result cannot be written to its file. -/
  | output
deriving DecidableEq, Repr

/-- The wording of a failure. -/
def Failure.message : Failure → String
  | .fault cause => cause.message
  | .setting cause => cause.message
  | .unfitValue => "invalid value for this setting"
  | .output => "cannot write the output file"

/-- How a run ends. -/
inductive Ending where
  /-- With a text for the standard output and lines for the standard error. -/
  | success (text : String) (notes : List String)
  | failure (failure : Failure)
  /-- The arguments cannot be understood. -/
  | misuse
deriving DecidableEq, Repr

/-- The exit code of a run. -/
def Ending.code : Ending → Nat
  | .success _ _ => 0
  | .failure _ => 1
  | .misuse => 2

/-! ## Settings of a run -/

/-- The settings for walks with changes. -/
def WalkSettings.changed (settings : WalkSettings) (request : Request) (changes : WalkChanges) :
    WalkSettings where
  exclude := (if changes.dropExcludes then [] else settings.exclude) ++ changes.exclude
  maxDepth := changes.maxDepth.orElse fun _ => settings.maxDepth
  includeTests := settings.includeTests || request.includeTests
  keepEmpty := settings.keepEmpty || changes.keepEmpty

/-- The locator for a request. -/
def Request.locator (request : Request) (tree : FileTree) (env : Environment)
    (paths : PathSettings) : Locator :=
  let root := request.workspaceRoot.orElse fun _ => paths.workspaceRoot
  let system := request.systemRoot.orElse fun _ => paths.systemRoot
  let locator :=
    match root with
    | some root => Locator.ofRoot tree root
    | none => Locator.ofTarget tree request.target
  (locator.withRoots tree system paths.moduleCache).completedBy tree env

namespace Invocation

/-- The settings that apply to a request. -/
def settings (invocation : Invocation) (tree : FileTree) (env : Environment) :
    Except Fault Settings :=
  match invocation.settingsPath with
  | some path => Settings.load tree path
  | none => .ok (Settings.loadDefault tree env)

/-- The path of the settings file. -/
def settingsFile (invocation : Invocation) (env : Environment) : String :=
  invocation.settingsPath.getD (Settings.defaultPath env)

end Invocation

/-! ## Results -/

/-- The text of a result. -/
def resultText (request : Request) (settings : Settings) (json : Json) : String :=
  (if settings.output.pretty && !request.compact then json.pretty else json.compact) ++ "\n"

/-- Writes the text of a result to its file or to the standard output. -/
def deliver (tree : FileTree) (request : Request) (text : String) (notes : List String) :
    FileTree × Ending :=
  match request.output with
  | none => (tree, .success text notes)
  | some path =>
      match tree.write? path text with
      | some tree => (tree, .success "" notes)
      | none => (tree, .failure .output)

/-- The line for a diagnostic in a summary. -/
def summaryLine (diagnostic : Diagnostic) : String :=
  "    [" ++ diagnostic.kind.name ++ "] " ++ diagnostic.file ++ " " ++ diagnostic.subject ++ ": " ++
    diagnostic.message

/-- The summary of a walk. -/
def summary (walk : Walk) : List String :=
  let count (n : Nat) : String := String.ofList (Nat.toDigits 10 n)
  [programName,
    "  Paths visited:  " ++ count walk.order.length,
    "  Modules:        " ++ count walk.world.modules.size,
    "  Files:          " ++ count walk.world.fileCount,
    "  Diagnostics:    " ++
      (if walk.diagnostics.isEmpty then "none" else count walk.diagnostics.length)] ++
    walk.diagnostics.map summaryLine

/-! ## The commands -/

namespace Command

/-- The walk over a target, if it ends well. -/
def walkTarget (base : Codebase) (options : WalkOptions) (target : String) : Except Fault Walk :=
  match Walk.run base options {} target with
  | (.done, walk) => .ok walk
  | (.failed fault, _) => .error fault
  | (.exhausted, _) => .error .io

/-- Writes the model of a target and everything it needs. -/
def runStructs (tree : FileTree) (env : Environment) (settings : Settings) (verbose : Bool)
    (request : Request) (changes : WalkChanges) : FileTree × Ending :=
  let walkSettings := settings.walk.changed request changes
  let base :=
    tree.codebase env (request.locator tree env settings.paths) walkSettings.includeTests
  match walkTarget base walkSettings.options request.target with
  | .error fault => (tree, .failure (.fault fault))
  | .ok walk =>
      deliver tree request
        (resultText request settings (walk.world.toJson FileModel.toJson))
        (if verbose then summary walk else [])

/-- Writes the functions of a target. -/
def runFuncs (tree : FileTree) (env : Environment) (settings : Settings) (request : Request) :
    FileTree × Ending :=
  let includeTests := request.includeTests || settings.walk.includeTests
  let base := tree.codebase env (request.locator tree env settings.paths) includeTests
  match base.functions request.target with
  | .error fault => (tree, .failure (.fault fault))
  | .ok world =>
      deliver tree request (resultText request settings (world.toJson FuncFile.toJson)) []

/-- Shows a setting. -/
def runGet (tree : FileTree) (path key : String) : FileTree × Ending :=
  match Settings.loadIfPresent tree path with
  | .error fault => (tree, .failure (.fault fault))
  | .ok settings =>
      match settings.toJson.canonical.get? key with
      | some value => (tree, .success (value.pretty ++ "\n") [])
      | none => (tree, .failure (.setting (.unknownKey key)))

/-- The value that a text stands for: a JSON value, or else the text itself. -/
def settingValue (text : String) : Json :=
  ((Json.read? text).map Json.canonical).getD (.str text)

/-- The settings with one of them changed. -/
def changeSetting (settings : Settings) (key value : String) : Except Failure Settings :=
  match settings.toJson.canonical.set key (settingValue value) with
  | .error fault => .error (.setting fault)
  | .ok json =>
      match Settings.ofJson? json with
      | none => .error .unfitValue
      | some settings => .ok settings

/-- Changes a setting. -/
def runSet (tree : FileTree) (path key value : String) : FileTree × Ending :=
  match Settings.loadIfPresent tree path with
  | .error fault => (tree, .failure (.fault fault))
  | .ok settings =>
      match changeSetting settings key value with
      | .error failure => (tree, .failure failure)
      | .ok settings =>
          match settings.save tree path with
          | (tree, .error fault) => (tree, .failure (.fault fault))
          | (tree, .ok ()) =>
              (tree, .success "" ["Updated " ++ key ++ " and saved to " ++ path])

end Command

/-- Runs a command. -/
def Invocation.run (invocation : Invocation) (tree : FileTree) (env : Environment) :
    FileTree × Ending :=
  match invocation.command with
  | .structs request changes =>
      match invocation.settings tree env with
      | .error fault => (tree, .failure (.fault fault))
      | .ok settings =>
          Command.runStructs tree env settings invocation.verbose request changes
  | .funcs request =>
      match invocation.settings tree env with
      | .error fault => (tree, .failure (.fault fault))
      | .ok settings => Command.runFuncs tree env settings request
  | .getSetting key => Command.runGet tree (invocation.settingsFile env) key
  | .setSetting key value => Command.runSet tree (invocation.settingsFile env) key value

/-- The text that explains how to call the program. -/
def usage : String :=
  "Usage: structgraph [OPTIONS] <structs|funcs|config get|config set>\n"

/-- Runs the program with the given arguments. -/
def runProgram (tree : FileTree) (env : Environment) (args : List String) : FileTree × Ending :=
  match Invocation.read args with
  | .ok invocation => invocation.run tree env
  | .error .misuse => (tree, .misuse)
  | .error .help => (tree, .success usage [])
  | .error (.version title) => (tree, .success (title ++ " " ++ programVersion ++ "\n") [])

end GoAtlas
