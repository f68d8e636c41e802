import GoAtlas.Source.Part

/-!
# What phrases mean as types

Lengths of arrays and parentheses are dropped.  Kinds of types without a counterpart in
the model are kept as unsupported, by the names of their kinds.
-/

namespace GoAtlas.Source.Parts

/-- The parameters and the results of a function.  Results without parentheses are a
single type. -/
def signature (parts : Parts) : List FieldDecl × List FieldDecl :=
  let params := ((parts.role? .params).map (·.meaning.members)).getD []
  let results :=
    match parts.role? .result with
    | none => []
    | some result =>
        if result.isPhrase .params then result.meaning.members
        else [{ names := [], type := result.meaning.type }]
  (params, results)

/-- The type of a function. -/
def funcType (parts : Parts) : TypeExpr :=
  let (params, results) := parts.signature
  .func params results

/-- The direction of a channel, by the arrow before or after its keyword. -/
def direction (parts : Parts) : ChanDir :=
  match (List.filter (fun part => !part.counts) parts).map Part.symbol with
  | .token .arrow :: _ => .recv
  | .token .chanWord :: .token .arrow :: _ => .send
  | _ => .both

/-- The type of the first part in its own right. -/
def innerType (parts : Parts) : TypeExpr :=
  match parts.proper with
  | inner :: _ => inner.meaning.type
  | [] => .unsupported ""

/-- What a phrase means as a type. -/
def toType (rule : Rule) (broken : Bool) (parts : Parts) : TypeExpr :=
  match rule with
  | .qualifiedType =>
      .selector (((parts.role? .package).map (·.text)).getD "") parts.name
  | .pointerType => .pointer parts.innerType
  | .sliceType | .arrayType | .countedArrayType => .array (parts.typeOf .element)
  | .mapType => .map (parts.typeOf .key) (parts.typeOf .value)
  | .structType => .struct parts.members broken
  | .interfaceType => .interface parts.members
  | .funcType => parts.funcType
  | .chanType => .chan parts.direction (parts.typeOf .value)
  | .parenType => parts.innerType
  | .genericType => .unsupported "generic_type"
  | .negatedType => .unsupported "negated_type"
  | _ => .unsupported ""

/-- The type of an element of an interface that is no method. -/
def elementType (parts : Parts) : TypeExpr :=
  match parts.proper with
  | [single] => single.meaning.type
  | _ => .unsupported "type_elem"

/-- The type of a field.  An embedded pointer has its star outside of the type. -/
def fieldType (parts : Parts) : TypeExpr :=
  let type := parts.typeOf .type
  if parts.names.isEmpty && parts.hasToken .star then .pointer type else type

/-- The fields, parameters or elements that a phrase lists. -/
def toMembers (rule : Rule) (parts : Parts) : List FieldDecl :=
  match rule with
  | .fieldDecl =>
      [{ names := parts.names, type := parts.fieldType, tag := (parts.role? .tag).map (·.text) }]
  | .methodElem => [{ names := [parts.name], type := parts.funcType }]
  | .typeElem => [{ names := [], type := parts.elementType }]
  | .param => [{ names := parts.names, type := parts.typeOf .type }]
  | .variadicParam => [{ names := parts.names, type := .ellipsis (parts.typeOf .type) }]
  | .fieldList | .params => parts.members
  | _ => []

end GoAtlas.Source.Parts
