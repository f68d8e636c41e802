import GoAtlas.Json.Basic

/-!
# Records in JSON

A record is written as an object with one entry for each field.  It may also be
given as an array of its fields in order, where fields at the end may be missing.
Entries that name no field are ignored; a field given twice is an error, and so
are more array items than fields.
-/

namespace GoAtlas.Json

/-- The only entry under a key, if there is one; `none` if there are several. -/
def onlyEntry? {α : Type} (key : String) (entries : List (String × α)) : Option (Option α) :=
  match entries.filter (·.1 == key) with
  | [] => some none
  | [(_, value)] => some (some value)
  | _ => none

/-- The fields with the given names from the entries of an object. -/
def namedFields? {α : Type} (names : List String) (entries : List (String × α)) :
    Option (List (Option α)) :=
  names.mapM fun name => onlyEntry? name entries

/-- As many fields as there are names from the items of an array. -/
def listedFields? {α : Type} : List String → List α → Option (List (Option α))
  | names, [] => some (names.map fun _ => none)
  | [], _ :: _ => none
  | _ :: names, item :: items => (listedFields? names items).map (some item :: ·)

/-- The fields of a record with the given field names. -/
def record? (names : List String) : Json → Option (List (Option Json))
  | .obj entries => namedFields? names entries
  | .arr items => listedFields? names items
  | _ => none

/-! ## Values of fields -/

/-- The text of a string. -/
def text? : Json → Option String
  | .str text => some text
  | _ => none

/-- The value of a boolean. -/
def bool? : Json → Option Bool
  | .bool b => some b
  | _ => none

/-- The items of an array, each decoded. -/
def list? {α : Type} (decode : Json → Option α) : Json → Option (List α)
  | .arr items => items.mapM decode
  | _ => none

/-- The entries of an object, each decoded; of several entries under one key the
last one stays. -/
def table? {α : Type} (decode : Json → Option α) : Json → Option (Table α)
  | .obj entries =>
      (entries.mapM fun (entry : String × Json) =>
        (decode entry.2).map (entry.1, ·)).map Table.ofList
  | _ => none

/-- A field that has to be there. -/
def required? {α : Type} (decode : Json → Option α) (field : Option Json) : Option α :=
  field.bind decode

/-- A field that takes the value `default` when it is missing. -/
def optional? {α : Type} (default : α) (decode : Json → Option α) : Option Json → Option α
  | none => some default
  | some json => decode json

end GoAtlas.Json
