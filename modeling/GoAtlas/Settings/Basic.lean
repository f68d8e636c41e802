import GoAtlas.Walk.Basic

/-!
# Settings

What can be set once and for all: how walks go, where packages are looked for, and how
results are written.  Every field has a default, so settings may be given in part.
-/

namespace GoAtlas

/-- The packages of the standard library that a walk leaves out by default. -/
def defaultExcludes : List String :=
  ["bufio", "bytes", "context", "errors", "fmt", "http", "io", "ioutil", "json", "log", "math",
    "net", "os", "path", "filepath", "reflect", "regexp", "runtime", "sort", "strconv", "strings",
    "sync", "atomic", "syscall", "testing", "time", "unicode", "unsafe", "url"]

/-- Settings for walks. -/
structure WalkSettings where
  /-- The names of packages that are neither kept nor followed. -/
  exclude : List String := defaultExcludes
  /-- How many imports may lie between a target and a place. -/
  maxDepth : Option Nat := none
  /-- Whether test files are parsed. -/
  includeTests : Bool := false
  /-- Whether files that contribute nothing are kept. -/
  keepEmpty : Bool := false
deriving DecidableEq, Repr

/-- Where packages are looked for; what is not set is found out. -/
structure PathSettings where
  workspaceRoot : Option String := none
  systemRoot : Option String := none
  moduleCache : Option String := none
deriving DecidableEq, Repr

/-- How results are written. -/
structure OutputSettings where
  /-- Whether results are spread over several lines. -/
  pretty : Bool := true
deriving DecidableEq, Repr

/-- All settings. -/
structure Settings where
  walk : WalkSettings := {}
  paths : PathSettings := {}
  output : OutputSettings := {}
deriving DecidableEq, Repr

/-- The options of a walk with the given settings. -/
def WalkSettings.options (settings : WalkSettings) : WalkOptions where
  exclude := settings.exclude
  maxDepth := settings.maxDepth
  keepEmpty := settings.keepEmpty

/-! ## Reading from a data format -/

/-- What has to be known of a data format to read settings from its values. -/
structure DataFormat (α : Type) where
  /-- The fields of a record with the given names, each of which may be missing. -/
  record? : List String → α → Option (List (Option α))
  /-- The items of a list. -/
  items? : α → Option (List α)
  text? : α → Option String
  bool? : α → Option Bool
  natural? : α → Option Nat
  /-- Whether a value stands for a missing one. -/
  isNull : α → Bool

namespace DataFormat

variable {α β : Type}

/-- A list of texts. -/
def texts? (format : DataFormat α) (value : α) : Option (List String) :=
  (format.items? value).bind fun items => items.mapM format.text?

/-- A value that may be missing. -/
def nullable? (format : DataFormat α) (decode : α → Option β) (value : α) :
    Option (Option β) :=
  if format.isNull value then some none else (decode value).map some

/-- A field that takes the value `default` when it is missing. -/
def field? (default : β) (decode : α → Option β) : Option α → Option β
  | none => some default
  | some value => decode value

end DataFormat

namespace Settings

open DataFormat

variable {α : Type}

/-- The settings for walks in a value of a data format. -/
def walkFrom? (format : DataFormat α) (value : α) : Option WalkSettings := do
  match ← format.record? ["exclude", "max_depth", "include_tests", "keep_empty_files"] value with
  | [exclude, maxDepth, includeTests, keepEmpty] =>
      return {
        exclude := ← field? defaultExcludes format.texts? exclude
        maxDepth := ← field? none (format.nullable? format.natural?) maxDepth
        includeTests := ← field? false format.bool? includeTests
        keepEmpty := ← field? false format.bool? keepEmpty }
  | _ => none

/-- The settings for paths in a value of a data format. -/
def pathsFrom? (format : DataFormat α) (value : α) : Option PathSettings := do
  match ← format.record? ["workspace_root", "system_root", "module_cache"] value with
  | [workspaceRoot, systemRoot, moduleCache] =>
      return {
        workspaceRoot := ← field? none (format.nullable? format.text?) workspaceRoot
        systemRoot := ← field? none (format.nullable? format.text?) systemRoot
        moduleCache := ← field? none (format.nullable? format.text?) moduleCache }
  | _ => none

/-- The settings for output in a value of a data format. -/
def outputFrom? (format : DataFormat α) (value : α) : Option OutputSettings := do
  match ← format.record? ["pretty"] value with
  | [pretty] => return { pretty := ← field? true format.bool? pretty }
  | _ => none

/-- The settings in a value of a data format. -/
def from? (format : DataFormat α) (value : α) : Option Settings := do
  match ← format.record? ["walk", "paths", "output"] value with
  | [walk, paths, output] =>
      return {
        walk := ← field? {} (walkFrom? format) walk
        paths := ← field? {} (pathsFrom? format) paths
        output := ← field? {} (outputFrom? format) output }
  | _ => none

end Settings

end GoAtlas
