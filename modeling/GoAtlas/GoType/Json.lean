import GoAtlas.GoType.Basic
import GoAtlas.Json.Record

/-!
# Types in JSON

A type is written as an object whose entry `kind` tells the constructor and whose
other entries are its arguments.  As an array, the kind comes first and the
arguments follow in order.

A kind is given by its name.  Inside another type it may also be given by its
number, because the parts of a type are decoded from a value that is already in
memory, where a name and its number are interchangeable.
-/

namespace GoAtlas

/-- The name of a direction. -/
def ChanDir.name : ChanDir → String
  | .both => "both"
  | .send => "send"
  | .recv => "recv"

/-- The direction with a given name. -/
def ChanDir.ofName? (name : String) : Option ChanDir :=
  [ChanDir.both, .send, .recv].find? (·.name == name)

/-- A direction is given by its name, or as an object with that name as the only
key and nothing under it. -/
def ChanDir.ofJson? : Json → Option ChanDir
  | .str name => ofName? name
  | .obj [(name, .null)] => ofName? name
  | .obj [(name, .obj [])] => ofName? name
  | _ => none

namespace GoType

mutual

/-- The JSON form of a type. -/
def toJson : GoType → Json
  | .primitive name => .obj [("kind", .str "primitive"), ("value", .str name)]
  | .array elem => .obj [("kind", .str "array"), ("value", elem.toJson)]
  | .map key value => .obj [("kind", .str "map"), ("key", key.toJson), ("value", value.toJson)]
  | .struct fields => .obj [("kind", .str "struct"), ("fields", .arr (toJsonAll fields))]
  | .interface methods => .obj [("kind", .str "interface"), ("methods", .arr (toJsonAll methods))]
  | .pointer target => .obj [("kind", .str "pointer"), ("value", target.toJson)]
  | .selector package name =>
      .obj [("kind", .str "selector"), ("prefix", .str package), ("value", .str name)]
  | .func args results =>
      .obj [("kind", .str "func"), ("args", .arr (toJsonAll args)),
        ("results", .arr (toJsonAll results))]
  | .channel elem dir =>
      .obj [("kind", .str "channel"), ("value", elem.toJson), ("dir", .str dir.name)]
  | .ellipsis elem => .obj [("kind", .str "ellipsis"), ("value", elem.toJson)]

/-- The JSON forms of a list of types. -/
def toJsonAll : List GoType → List Json
  | [] => []
  | type :: rest => type.toJson :: toJsonAll rest

end

/-! ## Decoding -/

/-- The constructors of `GoType`, in the order of their numbers. -/
inductive Kind where
  | primitive
  | array
  | map
  | struct
  | interface
  | pointer
  | selector
  | func
  | channel
  | ellipsis
deriving DecidableEq, Repr

namespace Kind

/-- All kinds in the order of their numbers. -/
def all : List Kind :=
  [primitive, array, map, struct, interface, pointer, selector, func, channel, ellipsis]

/-- The name of a kind. -/
def name : Kind → String
  | primitive => "primitive"
  | array => "array"
  | map => "map"
  | struct => "struct"
  | interface => "interface"
  | pointer => "pointer"
  | selector => "selector"
  | func => "func"
  | channel => "channel"
  | ellipsis => "ellipsis"

/-- The names of the arguments of a kind. -/
def fields : Kind → List String
  | primitive => ["value"]
  | array => ["value"]
  | map => ["key", "value"]
  | struct => ["fields"]
  | interface => ["methods"]
  | pointer => ["value"]
  | selector => ["prefix", "value"]
  | func => ["args", "results"]
  | channel => ["value", "dir"]
  | ellipsis => ["value"]

/-- The kind given by a JSON value, by its number only where that is allowed. -/
def ofJson? (byNumber : Bool) : Json → Option Kind
  | .str name => all.find? (·.name == name)
  | .int (.ofNat n) => if byNumber then all[n]? else none
  | _ => none

end Kind

/-- A JSON value with its readings as a type and as a list of types. -/
structure Part where
  json : Json
  type? : Option GoType
  types? : Option (List GoType)

/-- The type with the given constructor and arguments. -/
def build? : Kind → List (Option Part) → Option GoType
  | .primitive, [some value] => (value.json.text?).map .primitive
  | .array, [some value] => value.type?.map .array
  | .map, [some key, some value] =>
      key.type?.bind fun key => value.type?.map (.map key)
  | .struct, [some fields] => fields.types?.map .struct
  | .interface, [some methods] => methods.types?.map .interface
  | .pointer, [some value] => value.type?.map .pointer
  | .selector, [some package, some value] =>
      package.json.text?.bind fun package => value.json.text?.map (.selector package)
  | .func, [some args, some results] =>
      args.types?.bind fun args => results.types?.map (.func args)
  | .channel, [some value, some dir] =>
      value.type?.bind fun elem => (ChanDir.ofJson? dir.json).map (.channel elem)
  | .ellipsis, [some value] => value.type?.map .ellipsis
  | _, _ => none

/-- The type given by the entries of an object. -/
def ofEntries? (byNumber : Bool) (entries : List (String × Part)) : Option GoType :=
  match Json.onlyEntry? "kind" entries with
  | some (some kind) =>
      (Kind.ofJson? byNumber kind.json).bind fun kind =>
        (Json.namedFields? kind.fields (entries.filter (·.1 != "kind"))).bind (build? kind)
  | _ => none

/-- The type given by the items of an array. -/
def ofItems? (byNumber : Bool) : List Part → Option GoType
  | [] => none
  | kind :: args =>
      (Kind.ofJson? byNumber kind.json).bind fun kind =>
        (Json.listedFields? kind.fields args).bind (build? kind)

/-- All of the types that a list of parts can be read as. -/
def typesOf? (parts : List Part) : Option (List GoType) :=
  parts.mapM Part.type?

mutual

/-- The readings of a JSON value inside a type. -/
def part : Json → Part
  | .obj entries => ⟨.obj entries, ofEntries? true (partEntries entries), none⟩
  | .arr items =>
      let parts := partItems items
      ⟨.arr items, ofItems? true parts, typesOf? parts⟩
  | json => ⟨json, none, none⟩

/-- The readings of the items of an array. -/
def partItems : List Json → List Part
  | [] => []
  | item :: rest => part item :: partItems rest

/-- The readings of the entries of an object. -/
def partEntries : List (String × Json) → List (String × Part)
  | [] => []
  | (key, value) :: rest => (key, part value) :: partEntries rest

end

/-- The type that a JSON value is the form of.  All of the value is looked at, also entries
that name no argument. -/
def ofJson? (json : Json) : Option GoType :=
  if json.isPlain then
    match json with
    | .obj entries => ofEntries? false (partEntries entries)
    | .arr items => ofItems? false (partItems items)
    | _ => none
  else none

end GoType

end GoAtlas
