import GoAtlas.Json.Basic
import GoAtlas.Text.Blank

/-!
# Dot paths

A dot path names a place inside nested objects: `walk.exclude` is the entry
`exclude` of the entry `walk`.  `Json.get?` reads the value at a place, `Json.set`
replaces it.  Only entries that exist can be replaced.
-/

namespace GoAtlas.Json

/-- Why a value cannot be set at a path. -/
inductive PathFault where
  /-- A segment before the last names no entry. -/
  | unknownSection (name : String)
  /-- The segments before the last do not lead to an object. -/
  | notObject
  /-- The last segment names no entry. -/
  | unknownKey (name : String)
deriving DecidableEq, Repr

/-- The wording of a path fault. -/
def PathFault.message : PathFault → String
  | .unknownSection name => "Unknown config section: " ++ name
  | .notObject => "Config path does not lead to an object"
  | .unknownKey name => "Unknown config key: " ++ name

/-- The segments of a dot path. -/
def segments (path : String) : List String :=
  (splitWhere (· == '.') path.toList).map String.ofList

/-- The entry of an object under a key. -/
def entryOf? (json : Json) (key : String) : Option Json :=
  match json with
  | .obj entries => entry? key entries
  | _ => none

/-- The value below the given segments. -/
def getAt? (json : Json) : List String → Option Json
  | [] => some json
  | key :: rest =>
      match json.entryOf? key with
      | some value => value.getAt? rest
      | none => none

/-- The value at a dot path. -/
def get? (json : Json) (path : String) : Option Json :=
  json.getAt? (segments path)

/-- Replaces the value of the first entry under a key. -/
def replaceEntry (key : String) (value : Json) : List (String × Json) → List (String × Json)
  | [] => []
  | (k, v) :: rest =>
      if key = k then (k, value) :: rest else (k, v) :: replaceEntry key value rest

/-- Replaces the entry of an object under a key. -/
def setEntry (json : Json) (key : String) (value : Json) : Except PathFault Json :=
  match json with
  | .obj entries =>
      match entry? key entries with
      | some _ => .ok (.obj (replaceEntry key value entries))
      | none => .error (.unknownKey key)
  | _ => .error .notObject

/-- Replaces the value below the given segments. -/
def setAt (json : Json) (value : Json) : List String → Except PathFault Json
  | [] => .ok value
  | [key] => json.setEntry key value
  | key :: rest =>
      match json, json.entryOf? key with
      | .obj entries, some inner =>
          match inner.setAt value rest with
          | .ok inner => .ok (.obj (replaceEntry key inner entries))
          | .error fault => .error fault
      | _, _ => .error (.unknownSection key)

/-- Replaces the value at a dot path. -/
def set (json : Json) (path : String) (value : Json) : Except PathFault Json :=
  json.setAt value (segments path)

end GoAtlas.Json
