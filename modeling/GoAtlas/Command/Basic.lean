import GoAtlas.Command.Options

/-!
# Commands

What the program can be asked to do: to write the model of a target and everything it
needs, to write the functions of a target, and to show or change a setting.
-/

namespace GoAtlas

/-- What the commands that write a model have in common. -/
structure Request where
  /-- The path of the target. -/
  target : String
  includeTests : Bool := false
  workspaceRoot : Option String := none
  systemRoot : Option String := none
  /-- The file that the result goes to. -/
  output : Option String := none
  /-- Whether the result is put on one line. -/
  compact : Bool := false
deriving DecidableEq, Repr

/-- How the settings for walks are changed for one run. -/
structure WalkChanges where
  /-- The names of packages to be left out in addition. -/
  exclude : List String := []
  /-- Whether the names in the settings are dropped. -/
  dropExcludes : Bool := false
  maxDepth : Option Nat := none
  keepEmpty : Bool := false
deriving DecidableEq, Repr

/-- What the program is asked to do. -/
inductive Command where
  | structs (request : Request) (changes : WalkChanges)
  | funcs (request : Request)
  | getSetting (key : String)
  | setSetting (key value : String)
deriving DecidableEq, Repr

/-- A command with what applies to all commands. -/
structure Invocation where
  /-- The path of the settings file. -/
  settingsPath : Option String := none
  /-- Whether a summary is wanted. -/
  verbose : Bool := false
  command : Command
deriving DecidableEq, Repr

/-! ## What can be given -/

/-- The name of the program. -/
def programName : String := "structgraph"

/-- The version of the program. -/
def programVersion : String := "0.1.0"

/-- The options of all commands. -/
def commonOptions : List OptionSpec :=
  [{ name := "config", kind := .path }, { name := "verbose", letter := some 'v' }, helpOption,
    versionOption]

/-- The options of the commands that write a model. -/
def requestOptions : List OptionSpec :=
  [{ name := "target", letter := some 't', kind := .path }, { name := "include-tests" },
    { name := "workspace-root", kind := .path }, { name := "system-root", kind := .path },
    { name := "output", letter := some 'o', kind := .path }, { name := "compact" }]

/-- The options that change the settings for walks. -/
def walkOptions : List OptionSpec :=
  [{ name := "exclude", letter := some 'x', kind := .text, repeatable := true },
    { name := "no-default-excludes" }, { name := "max-depth", kind := .number },
    { name := "keep-empty-files" }]

/-- The program itself. -/
def programSpec : CommandSpec where
  title := programName
  options := commonOptions
  commands := ["structs", "funcs", "config", "help"]

/-- The command that writes a model. -/
def structsSpec : CommandSpec where
  title := programName ++ "-structs"
  options := requestOptions ++ walkOptions ++ commonOptions

/-- The command that writes functions. -/
def funcsSpec : CommandSpec where
  title := programName ++ "-funcs"
  options := requestOptions ++ commonOptions

/-- The commands on settings. -/
def configSpec : CommandSpec where
  title := programName ++ "-config"
  options := commonOptions
  commands := ["get", "set", "help"]

/-- The command that shows a setting. -/
def getSpec : CommandSpec where
  title := programName ++ "-config-get"
  options := commonOptions
  words := 1

/-- The command that changes a setting. -/
def setSpec : CommandSpec where
  title := programName ++ "-config-set"
  options := commonOptions
  words := 2

/-! ## Reading commands -/

namespace Given

/-- The request that has been given. -/
def request? (given : Given) : Option Request :=
  (given.value? "target").map fun target =>
    { target
      includeTests := given.has "include-tests"
      workspaceRoot := given.value? "workspace-root"
      systemRoot := given.value? "system-root"
      output := given.value? "output"
      compact := given.has "compact" }

/-- The changes for walks that have been given. -/
def walkChanges (given : Given) : WalkChanges where
  exclude := given.values "exclude"
  dropExcludes := given.has "no-default-excludes"
  maxDepth := (given.value? "max-depth").bind number?
  keepEmpty := given.has "keep-empty-files"

end Given

namespace Invocation

/-- A command with what has been given for all commands, on the levels from the
innermost to the outermost.  The innermost settings file counts. -/
def ofLevels (levels : List Given) (command : Command) : Invocation where
  settingsPath := levels.findSome? fun given => given.value? "config"
  verbose := levels.any fun given => given.has "verbose"
  command

/-- Reads the arguments of a command without commands of its own. -/
def readLeaf (spec : CommandSpec) (outer : List Given) (args : List String)
    (command? : Given → Option Command) : Except Stop Invocation :=
  match spec.read none {} args with
  | .error stop => .error stop
  | .ok (given, _) =>
      match command? given with
      | none => .error .misuse
      | some command => .ok (ofLevels (given :: outer) command)

/-- The command that shows a setting. -/
def getCommand? (given : Given) : Option Command :=
  match given.words with
  | [key] => some (.getSetting key)
  | _ => none

/-- The command that changes a setting. -/
def setCommand? (given : Given) : Option Command :=
  match given.words with
  | [key, value] => some (.setSetting key value)
  | _ => none

/-- Whether the names lead to a command. -/
def isCommand : List String → Bool
  | [] => true
  | [name] => programSpec.commands.contains name
  | ["config", name] => configSpec.commands.contains name
  | _ => false

/-- Answers a request for help on a command. -/
def help {α : Type} (names : List String) : Except Stop α :=
  if isCommand names then .error .help else .error .misuse

/-- Reads a command on settings. -/
def readConfig (outer : List Given) (args : List String) : Except Stop Invocation :=
  match configSpec.read none {} args with
  | .error stop => .error stop
  | .ok (_, none) => .error .misuse
  | .ok (given, some (name, rest)) =>
      if name = "get" then readLeaf getSpec (given :: outer) rest getCommand?
      else if name = "set" then readLeaf setSpec (given :: outer) rest setCommand?
      else help ("config" :: rest)

/-- Reads the arguments of the program. -/
def read (args : List String) : Except Stop Invocation :=
  match programSpec.read none {} args with
  | .error stop => .error stop
  | .ok (_, none) => .error .misuse
  | .ok (given, some (name, rest)) =>
      if name = "structs" then
        readLeaf structsSpec [given] rest fun given =>
          given.request?.map fun request => .structs request given.walkChanges
      else if name = "funcs" then
        readLeaf funcsSpec [given] rest fun given => given.request?.map .funcs
      else if name = "config" then readConfig [given] rest
      else help rest

end Invocation

end GoAtlas
