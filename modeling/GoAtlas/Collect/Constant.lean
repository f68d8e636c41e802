import GoAtlas.Decl.Basic

/-!
# Which constants enumerate an alias

A constant names the alias it belongs to by its type, as in `const Red Color =
"red"`, or by a conversion, as in `const Red = Color("red")`.  `ConstDecl.reading`
tells which alias a constant names and by which literal, and otherwise whether
the constant is of no interest or worth a report.
-/

namespace GoAtlas

/-- What a constant says about an alias. -/
inductive ConstReading where
  /-- It enumerates a value of the alias `typeName`, written as `literal`. -/
  | enumerates (typeName literal : String)
  /-- It has nothing to do with an alias. -/
  | unrelated
  /-- It might enumerate a value, but its shape is beyond the model. -/
  | complex (message : String)
deriving DecidableEq, Repr

namespace ConstReading

/-- A constant with the declared type `typeName` and one initializer. -/
def ofTyped (typeName : String) : ValueExpr → ConstReading
  | .iota => .unrelated
  | value =>
      match value.firstLiteral? with
      | some literal => .enumerates typeName literal
      | none => .complex ("no literal found in value of " ++ typeName ++ " constant")

/-- A conversion with the given callee and arguments. -/
def ofConversion : ValueExpr → List ValueExpr → ConstReading
  | .ident typeName, [arg] =>
      match arg.firstLiteral? with
      | some literal => .enumerates typeName literal
      | none => .complex ("no literal found in " ++ typeName ++ "(...)")
  | .ident typeName, args =>
      .complex (typeName ++ "(...) takes " ++ Nat.repr args.length ++ " arguments")
  | _, _ => .complex "conversion callee is not a simple identifier"

/-- A constant without declared type and with one initializer. -/
def ofUntyped (value : ValueExpr) : ConstReading :=
  match value.firstCall? with
  | some (callee, args) => ofConversion callee args
  | none =>
      match value with
      | .literal _ | .iota => .unrelated
      | _ => .complex "untyped constant is neither a literal nor a conversion"

end ConstReading

/-- What a constant says about an alias. -/
def ConstDecl.reading (decl : ConstDecl) : ConstReading :=
  match decl.values, decl.type with
  | [value], some (.ident typeName) => .ofTyped typeName value
  | [_], some type =>
      .complex ("constant typed by " ++ type.kindName ++ " is not enumerable")
  | [value], none => .ofUntyped value
  | _, _ => .unrelated

end GoAtlas
