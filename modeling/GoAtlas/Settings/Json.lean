import GoAtlas.Json.Record
import GoAtlas.Settings.Basic
import GoAtlas.Text.Decimal

/-!
# Settings in JSON

The JSON form of settings has an entry for every field, with null for what is not
set.
-/

namespace GoAtlas

/-- JSON as a format of settings. -/
def Json.format : DataFormat Json where
  record? := Json.record?
  items?
    | .arr items => some items
    | _ => none
  text? := Json.text?
  bool? := Json.bool?
  natural?
    | .int (.ofNat n) => if n < wordLimit then some n else none
    | _ => none
  isNull
    | .null => true
    | _ => false

namespace Settings

/-- A value that may be missing. -/
def optionToJson {α : Type} (encode : α → Json) : Option α → Json
  | none => .null
  | some value => encode value

/-- The JSON form of settings for walks. -/
def walkToJson (walk : WalkSettings) : Json :=
  .obj [("exclude", .arr (walk.exclude.map .str)),
    ("max_depth", optionToJson (fun n => .int (Int.ofNat n)) walk.maxDepth),
    ("include_tests", .bool walk.includeTests), ("keep_empty_files", .bool walk.keepEmpty)]

/-- The JSON form of settings for paths. -/
def pathsToJson (paths : PathSettings) : Json :=
  .obj [("workspace_root", optionToJson .str paths.workspaceRoot),
    ("system_root", optionToJson .str paths.systemRoot),
    ("module_cache", optionToJson .str paths.moduleCache)]

/-- The JSON form of settings for output. -/
def outputToJson (output : OutputSettings) : Json :=
  .obj [("pretty", .bool output.pretty)]

/-- The JSON form of settings. -/
def toJson (settings : Settings) : Json :=
  .obj [("walk", walkToJson settings.walk), ("paths", pathsToJson settings.paths),
    ("output", outputToJson settings.output)]

/-- The settings that a JSON value is the form of. -/
def ofJson? (json : Json) : Option Settings :=
  from? Json.format json

end Settings

end GoAtlas
