import GoAtlas.Decl.Basic

/-!
# Types of the model

A `GoType` is what the model records of a type: its shape and the names in it.
Field names and tags of structs, method names of interfaces and parameter names
are dropped; there is one entry for each member declaration.

`GoType.render` writes a type the way Go does.
-/

namespace GoAtlas

/-- A type of the model. -/
inductive GoType where
  /-- A type named without a package. -/
  | primitive (name : String)
  | array (elem : GoType)
  | map (key value : GoType)
  | struct (fields : List GoType)
  | interface (methods : List GoType)
  | pointer (target : GoType)
  /-- The name `name` of the package imported as `package`. -/
  | selector (package name : String)
  | func (args results : List GoType)
  | channel (elem : GoType) (dir : ChanDir)
  | ellipsis (elem : GoType)
deriving Repr

instance : Inhabited GoType := ⟨.primitive ""⟩

/-- What is written before the element type of a channel. -/
def ChanDir.mark : ChanDir → List Char
  | .both => "chan ".toList
  | .send => "chan<- ".toList
  | .recv => "<-chan ".toList

/-- The texts one after another with `separator` between them. -/
def joinWith (separator : List Char) : List (List Char) → List Char
  | [] => []
  | [text] => text
  | text :: rest => text ++ separator ++ joinWith separator rest

namespace GoType

/-- A member list in braces after a keyword. -/
def braced (keyword : List Char) (members : List (List Char)) : List Char :=
  if members.isEmpty then keyword ++ ['\x7b', '\x7d']
  else keyword ++ ['\x7b', ' '] ++ joinWith "; ".toList members ++ [' ', '\x7d']

/-- The results of a function: nothing, a single type, or a list in
parentheses. -/
def resultList : List (List Char) → List Char
  | [] => []
  | [single] => ' ' :: single
  | many => [' ', '('] ++ joinWith ", ".toList many ++ [')']

mutual

/-- The characters of the Go text of a type. -/
def chars : GoType → List Char
  | .primitive name => name.toList
  | .array elem => "[]".toList ++ elem.chars
  | .map key value => "map[".toList ++ key.chars ++ [']'] ++ value.chars
  | .struct fields => braced "struct".toList (charsAll fields)
  | .interface methods => braced "interface".toList (charsAll methods)
  | .pointer target => '*' :: target.chars
  | .selector package name => package.toList ++ ['.'] ++ name.toList
  | .func args results =>
      "func(".toList ++ joinWith ", ".toList (charsAll args) ++ [')'] ++
        resultList (charsAll results)
  | .channel elem dir => dir.mark ++ elem.chars
  | .ellipsis elem => "...".toList ++ elem.chars

/-- The characters of the Go text of each type of a list. -/
def charsAll : List GoType → List (List Char)
  | [] => []
  | type :: rest => type.chars :: charsAll rest

end

/-- The Go text of a type. -/
def render (type : GoType) : String :=
  String.ofList type.chars

end GoType

end GoAtlas
