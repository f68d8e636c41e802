import GoAtlas.Source.Part

/-!
# What phrases mean as values

An initializer is reduced to the literals, names and calls in it.  Everything else is
compound, with the parts in their own right as its operands.
-/

namespace GoAtlas.Source

/-- What a token means as a value. -/
def tokenValue (label : Label) (token : Token) (text : String) : ValueExpr :=
  match token with
  | .rawString | .quotedString | .integer | .float | .imaginary | .rune => .literal text
  | .iotaWord => .iota
  | .nilWord | .trueWord | .falseWord | .newWord | .makeWord => .ident text
  | .identifier => if label.names then .compound [] else .ident text
  | _ => .compound []

namespace Parts

/-- The values of the parts in their own right. -/
def operands (parts : Parts) : List ValueExpr := parts.proper.map (·.meaning.value)

/-- Whether a part is a number that takes in its sign. -/
def isNumber (part : Part) : Bool :=
  part.isToken .integer || part.isToken .float || part.isToken .imaginary

/-- Whether a part is the name of a value. -/
def isName (part : Part) : Bool :=
  (part.isToken .identifier && !part.label.names) || part.isToken .newWord ||
    part.isToken .makeWord

/-- What is called in a conversion to a type. -/
def conversionCallee : TypeExpr → ValueExpr
  | .ident name => .ident name
  | .selector package name => .selector package name
  | _ => .compound []

/-- A value selected from another one.  Names of packages cannot be told from other
names here. -/
def selection (parts : Parts) : ValueExpr :=
  match parts.role? .operand, parts.role? .field with
  | some operand, some field =>
      if isName operand then .selector operand.text field.text else .compound parts.operands
  | _, _ => .compound parts.operands

/-- A value with an operator before it.  The sign of a number belongs to the literal. -/
def signed (parts : Parts) : ValueExpr :=
  match parts.role? .operator, parts.role? .operand with
  | some operator, some operand =>
      if (operator.isToken .minus || operator.isToken .plus) && isNumber operand then
        .literal (operator.text ++ operand.text)
      else .compound parts.operands
  | _, _ => .compound parts.operands

/-- The values that the first part with a role lists. -/
def valuesOf (parts : Parts) (role : Role) : List ValueExpr :=
  match parts.role? role with
  | some part =>
      match part.meaning.value with
      | .compound values => values
      | _ => []
  | none => []

/-- What a phrase means as a value. -/
def toValue (rule : Rule) (parts : Parts) : ValueExpr :=
  match rule with
  | .selector => parts.selection
  | .call =>
      let callee := ((parts.role? .function).map fun part => part.meaning.value).getD (.compound [])
      .call callee (parts.valuesOf .args)
  | .conversion =>
      .call (conversionCallee (parts.typeOf .type))
        ((parts.role? .operand).map fun part => part.meaning.value).toList
  | .unary => parts.signed
  | _ => .compound parts.operands

end Parts

end GoAtlas.Source
