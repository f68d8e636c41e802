import GoAtlas.GoType.Basic
import GoAtlas.Import

/-!
# The model of a code base

A `World` is what is known of a code base after a walk: modules, their files, and
what each file contributes.  A module is named after its package; packages of
one name found in different directories share a module.

Files contribute either their exported types (`FileModel`) or their functions
(`FuncFile`), so worlds are parametric in what is known of a file.
-/

namespace GoAtlas

/-! ## What a file contributes -/

/-- A field of a struct. -/
structure StructField where
  name : String
  tags : Table (List String)
  type : GoType
  /-- Whether the field has no name of its own. -/
  embedded : Bool
deriving Repr

/-- An exported struct. -/
structure StructModel where
  name : String
  fields : Table StructField
deriving Repr

/-- An exported interface; only its existence is recorded. -/
structure InterfaceModel where
  name : String
deriving DecidableEq, Repr

/-- A constant that enumerates a value of an alias. -/
structure AliasValue where
  /-- The alias it claims to belong to. -/
  typeName : String
  name : String
  /-- The literal as written. -/
  value : String
  /-- The number of the constant among those recorded in its file, from 1. -/
  seq : Nat
deriving DecidableEq, Repr

/-- An exported name for another type, with the values enumerated for it. -/
structure Alias where
  name : String
  /-- The type it stands for. -/
  target : GoType
  candidates : List AliasValue := []
  /-- The declarations behind the candidates, in the same order. -/
  sources : List ConstDecl := []
deriving Repr

/-- What a file contributes in types. -/
structure FileModel where
  name : String
  aliases : Table Alias := Table.empty
  structs : Table StructModel := Table.empty
  interfaces : Table InterfaceModel := Table.empty
  imports : ImportTable := Table.empty
  /-- Constants whose alias has not been declared. -/
  pending : List AliasValue := []
deriving Repr

/-- Whether a file contributes no struct, interface or alias. -/
def FileModel.isEmpty (file : FileModel) : Bool :=
  file.structs.isEmpty && file.interfaces.isEmpty && file.aliases.isEmpty

/-- A parameter or result of a function. -/
structure FuncParam where
  /-- Empty if there is no name. -/
  name : String
  type : GoType
deriving Repr

/-- A function without receiver. -/
structure FuncModel where
  name : String
  params : List FuncParam
  returns : List FuncParam
deriving Repr

/-- What a file contributes in functions. -/
structure FuncFile where
  name : String
  functions : Table FuncModel := Table.empty
  imports : ImportTable := Table.empty
deriving Repr

/-! ## Modules and worlds -/

/-- A module whose files contribute `φ`. -/
structure GoModule (φ : Type) where
  name : String
  /-- The import path, empty as long as no file tells it. -/
  fullName : String := ""
  files : Table φ := Table.empty
deriving Repr

/-- The modules of a code base under their names. -/
structure World (φ : Type) where
  modules : Table (GoModule φ) := Table.empty
deriving Repr

namespace World

variable {φ : Type}

/-- The number of files over all modules. -/
def fileCount (world : World φ) : Nat :=
  world.modules.values.foldl (fun count module => count + module.files.size) 0

/-- Stores a file in the module of its package.  The module is created if need
be, and takes the import path of the file if it has none yet. -/
def addFile (world : World φ) (package fileName : String) (fullName? : Option String)
    (file : φ) : World φ :=
  let module := (world.modules.get? package).getD { name := package }
  let fullName := if module.fullName.isEmpty then fullName?.getD "" else module.fullName
  let files := module.files.insert fileName file
  { modules := world.modules.insert package { module with fullName, files } }

end World

end GoAtlas
