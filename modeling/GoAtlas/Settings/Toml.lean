import GoAtlas.Fault
import GoAtlas.Settings.Basic
import GoAtlas.Toml.Read

/-!
# Settings in TOML

Settings are kept in a TOML file with the tables `walk`, `paths` and `output`.  What is
not set is left out.  Lists of several elements take a line for each of them.

TOML has integers up to `2 ^ 63 - 1` only, so settings with a larger depth limit cannot be
written.
-/

namespace GoAtlas

namespace Toml

/-- The fields of a record with the given names.  Items of an array beyond the fields
are ignored.  A date has fields of its own, none of them in settings. -/
def record? (names : List String) : Toml → Option (List (Option Toml))
  | .table entries => some (names.map fun name => entry? name entries)
  | .arr items => some (listed names items)
  | .datetime _ => some (names.map fun _ => none)
  | _ => none
where
  /-- As many items as there are names. -/
  listed : List String → List Toml → List (Option Toml)
    | [], _ => []
    | _ :: names, [] => none :: listed names []
    | _ :: names, item :: items => some item :: listed names items

/-- TOML as a format of settings. -/
def format : DataFormat Toml where
  record? := record?
  items?
    | .arr items => some items
    | _ => none
  text?
    | .str text => some text
    | _ => none
  bool?
    | .bool b => some b
    | _ => none
  natural?
    | .int (.ofNat n) => some n
    | _ => none
  isNull _ := false

end Toml

namespace Settings

/-- The settings that a TOML text holds. -/
def ofToml? (text : String) : Option Settings :=
  (Toml.read? text).bind fun entries => from? Toml.format (.table entries)

/-! ## Writing -/

/-- A line with a key and a value. -/
def pairLine (key : String) (value : List Char) : List Char :=
  key.toList ++ " = ".toList ++ value ++ ['\n']

/-- A line with a key and a value, if there is one. -/
def optionalLine (key : String) : Option (List Char) → List Char
  | none => []
  | some value => pairLine key value

/-- A list of texts. -/
def listText : List String → List Char
  | [] => "[]".toList
  | [text] => '[' :: Toml.Quoted.write text.toList ++ [']']
  | texts =>
      "[\n".toList ++
        texts.flatMap (fun text =>
          "    ".toList ++ Toml.Quoted.write text.toList ++ ",\n".toList) ++
        [']']

/-- A text that may be missing. -/
def quoted? (text : Option String) : Option (List Char) :=
  text.map fun text => Toml.Quoted.write text.toList

/-- The TOML text of a boolean. -/
def boolText (b : Bool) : List Char :=
  if b then "true".toList else "false".toList

/-- The TOML text of settings for walks. -/
def walkText (walk : WalkSettings) : List Char :=
  "[walk]\n".toList ++ pairLine "exclude" (listText walk.exclude) ++
    optionalLine "max_depth" (walk.maxDepth.map fun n => (Nat.toDigits 10 n)) ++
    pairLine "include_tests" (boolText walk.includeTests) ++
    pairLine "keep_empty_files" (boolText walk.keepEmpty)

/-- The TOML text of settings for paths. -/
def pathsText (paths : PathSettings) : List Char :=
  "[paths]\n".toList ++ optionalLine "workspace_root" (quoted? paths.workspaceRoot) ++
    optionalLine "system_root" (quoted? paths.systemRoot) ++
    optionalLine "module_cache" (quoted? paths.moduleCache)

/-- The TOML text of settings for output. -/
def outputText (output : OutputSettings) : List Char :=
  "[output]\n".toList ++ pairLine "pretty" (boolText output.pretty)

/-- The TOML text of settings. -/
def toToml (settings : Settings) : Except Fault String :=
  if settings.walk.maxDepth.all (· < signedLimit) then
    .ok (String.ofList (walkText settings.walk ++ ['\n'] ++ pathsText settings.paths ++ ['\n'] ++
      outputText settings.output))
  else .error .settings

end Settings

end GoAtlas
