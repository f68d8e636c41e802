import GoAtlas.GoType.Json
import GoAtlas.Json.Record
import GoAtlas.World.Basic
import GoAtlas.World.Diagnostic

/-!
# Worlds in JSON

Every part of a world is written as a record.  The bookkeeping of constants (their
number, the alias they claim, the declarations behind them and those still waiting)
is not written, and is empty after reading.  The tables of a file are left out
when they are empty.
-/

namespace GoAtlas

open Json

/-- The entry of a table, left out when the table is empty. -/
def entryUnlessEmpty {α : Type} (key : String) (encode : α → Json) (table : Table α) :
    List (String × Json) :=
  if table.isEmpty then [] else [(key, ofTable encode table)]

/-! ## Imports and tags -/

/-- The JSON form of an import. -/
def Import.toJson (entry : Import) : Json :=
  .obj [("name", .str entry.name), ("fullname", .str entry.fullName),
    ("needparse", .bool entry.needed)]

/-- The import that a JSON value is the form of. -/
def Import.ofJson? (json : Json) : Option Import := do
  match ← record? ["name", "fullname", "needparse"] json with
  | [name, fullName, needed] =>
      return {
        name := ← required? text? name
        fullName := ← required? text? fullName
        needed := ← required? bool? needed }
  | _ => none

/-- The JSON form of the tags of a field. -/
def tagsToJson (tags : Table (List String)) : Json :=
  ofTable (fun values => .arr (values.map .str)) tags

/-! ## Structs, interfaces and aliases -/

/-- The JSON form of a field. -/
def StructField.toJson (field : StructField) : Json :=
  .obj [("name", .str field.name), ("tags", tagsToJson field.tags), ("type", field.type.toJson),
    ("embed", .bool field.embedded)]

/-- The field that a JSON value is the form of. -/
def StructField.ofJson? (json : Json) : Option StructField := do
  match ← record? ["name", "tags", "type", "embed"] json with
  | [name, tags, type, embedded] =>
      return {
        name := ← required? text? name
        tags := ← required? (table? (list? text?)) tags
        type := ← required? GoType.ofJson? type
        embedded := ← required? bool? embedded }
  | _ => none

/-- The JSON form of a struct. -/
def StructModel.toJson (model : StructModel) : Json :=
  .obj [("name", .str model.name), ("fields", ofTable StructField.toJson model.fields)]

/-- The struct that a JSON value is the form of. -/
def StructModel.ofJson? (json : Json) : Option StructModel := do
  match ← record? ["name", "fields"] json with
  | [name, fields] =>
      return {
        name := ← required? text? name
        fields := ← required? (table? StructField.ofJson?) fields }
  | _ => none

/-- The JSON form of an interface. -/
def InterfaceModel.toJson (model : InterfaceModel) : Json :=
  .obj [("name", .str model.name)]

/-- The interface that a JSON value is the form of. -/
def InterfaceModel.ofJson? (json : Json) : Option InterfaceModel := do
  match ← record? ["name"] json with
  | [name] => return { name := ← required? text? name }
  | _ => none

/-- The JSON form of a value of an alias. -/
def AliasValue.toJson (value : AliasValue) : Json :=
  .obj [("name", .str value.name), ("value", .str value.value)]

/-- The value of an alias that a JSON value is the form of. -/
def AliasValue.ofJson? (json : Json) : Option AliasValue := do
  match ← record? ["name", "value"] json with
  | [name, value] =>
      return {
        typeName := ""
        name := ← required? text? name
        value := ← required? text? value
        seq := 0 }
  | _ => none

/-- The JSON form of an alias. -/
def Alias.toJson (model : Alias) : Json :=
  .obj [("name", .str model.name), ("original", model.target.toJson),
    ("candidates", .arr (model.candidates.map AliasValue.toJson))]

/-- The alias that a JSON value is the form of. -/
def Alias.ofJson? (json : Json) : Option Alias := do
  match ← record? ["name", "original", "candidates"] json with
  | [name, target, candidates] =>
      return {
        name := ← required? text? name
        target := ← required? GoType.ofJson? target
        candidates := ← required? (list? AliasValue.ofJson?) candidates }
  | _ => none

/-! ## Files -/

/-- The JSON form of what a file contributes in types. -/
def FileModel.toJson (file : FileModel) : Json :=
  .obj (("name", .str file.name) ::
    entryUnlessEmpty "alias" Alias.toJson file.aliases ++
    entryUnlessEmpty "struct" StructModel.toJson file.structs ++
    entryUnlessEmpty "interface" InterfaceModel.toJson file.interfaces ++
    entryUnlessEmpty "import" Import.toJson file.imports)

/-- The contribution in types that a JSON value is the form of. -/
def FileModel.ofJson? (json : Json) : Option FileModel := do
  match ← record? ["name", "alias", "struct", "interface", "import"] json with
  | [name, aliases, structs, interfaces, imports] =>
      return {
        name := ← required? text? name
        aliases := ← optional? Table.empty (table? Alias.ofJson?) aliases
        structs := ← optional? Table.empty (table? StructModel.ofJson?) structs
        interfaces := ← optional? Table.empty (table? InterfaceModel.ofJson?) interfaces
        imports := ← optional? Table.empty (table? Import.ofJson?) imports }
  | _ => none

/-- The JSON form of a parameter. -/
def FuncParam.toJson (param : FuncParam) : Json :=
  .obj [("name", .str param.name), ("type", param.type.toJson)]

/-- The parameter that a JSON value is the form of. -/
def FuncParam.ofJson? (json : Json) : Option FuncParam := do
  match ← record? ["name", "type"] json with
  | [name, type] =>
      return {
        name := ← required? text? name
        type := ← required? GoType.ofJson? type }
  | _ => none

/-- The JSON form of a function. -/
def FuncModel.toJson (model : FuncModel) : Json :=
  .obj [("name", .str model.name), ("params", .arr (model.params.map FuncParam.toJson)),
    ("returns", .arr (model.returns.map FuncParam.toJson))]

/-- The function that a JSON value is the form of. -/
def FuncModel.ofJson? (json : Json) : Option FuncModel := do
  match ← record? ["name", "params", "returns"] json with
  | [name, params, returns] =>
      return {
        name := ← required? text? name
        params := ← required? (list? FuncParam.ofJson?) params
        returns := ← required? (list? FuncParam.ofJson?) returns }
  | _ => none

/-- The JSON form of what a file contributes in functions. -/
def FuncFile.toJson (file : FuncFile) : Json :=
  .obj (("name", .str file.name) :: ("function", ofTable FuncModel.toJson file.functions) ::
    entryUnlessEmpty "import" Import.toJson file.imports)

/-- The contribution in functions that a JSON value is the form of. -/
def FuncFile.ofJson? (json : Json) : Option FuncFile := do
  match ← record? ["name", "function", "import"] json with
  | [name, functions, imports] =>
      return {
        name := ← required? text? name
        functions := ← required? (table? FuncModel.ofJson?) functions
        imports := ← optional? Table.empty (table? Import.ofJson?) imports }
  | _ => none

/-! ## Modules and worlds -/

/-- The JSON form of a module. -/
def GoModule.toJson {φ : Type} (encode : φ → Json) (module : GoModule φ) : Json :=
  .obj [("name", .str module.name), ("fullname", .str module.fullName),
    ("file", ofTable encode module.files)]

/-- The module that a JSON value is the form of. -/
def GoModule.ofJson? {φ : Type} (decode : Json → Option φ) (json : Json) :
    Option (GoModule φ) := do
  match ← record? ["name", "fullname", "file"] json with
  | [name, fullName, files] =>
      return {
        name := ← required? text? name
        fullName := ← required? text? fullName
        files := ← required? (table? decode) files }
  | _ => none

/-- The JSON form of a world. -/
def World.toJson {φ : Type} (encode : φ → Json) (world : World φ) : Json :=
  .obj [("module", ofTable (GoModule.toJson encode) world.modules)]

/-- The world that a JSON value is the form of. -/
def World.ofJson? {φ : Type} (decode : Json → Option φ) (json : Json) : Option (World φ) := do
  match ← record? ["module"] json with
  | [modules] =>
      return { modules := ← required? (table? (GoModule.ofJson? decode)) modules }
  | _ => none

/-! ## Diagnostics -/

/-- The JSON form of a diagnostic. -/
def Diagnostic.toJson (diagnostic : Diagnostic) : Json :=
  .obj [("file", .str diagnostic.file), ("subject", .str diagnostic.subject),
    ("kind", .str diagnostic.kind.name), ("message", .str diagnostic.message)]

end GoAtlas
