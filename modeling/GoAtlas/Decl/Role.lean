import GoAtlas.Decl.Basic
import GoAtlas.Text.Uppercase

/-!
# The role of a declaration

A declaration contributes to the model of its file as a struct, an interface, an
alias or a value of an alias, or not at all.  Types contribute only when they
are exported; a constant contributes whenever it has exactly one initializer,
because its value belongs to whatever alias it names.
-/

namespace GoAtlas

/-- How a declaration contributes to the model. -/
inductive Role where
  | struct
  | interface
  | alias
  | aliasValue
deriving DecidableEq, Repr

namespace Decl

/-- Whether this declares an exported type whose expression satisfies `p`. -/
def isExportedType (p : TypeExpr → Bool) : Decl → Bool
  | .type decl => isExported decl.name && p decl.expr
  | _ => false

/-- Whether this declares an exported struct. -/
def isStruct : Decl → Bool :=
  isExportedType fun
    | .struct _ _ => true
    | _ => false

/-- Whether this declares an exported interface. -/
def isInterface : Decl → Bool :=
  isExportedType fun
    | .interface _ => true
    | _ => false

/-- Whether this declares an exported name for a named type, an array, a map or
a pointer. -/
def isAlias : Decl → Bool :=
  isExportedType fun
    | .ident _ | .selector _ _ | .array _ | .map _ _ | .pointer _ => true
    | _ => false

/-- Whether this declares a constant with exactly one initializer. -/
def isAliasValue : Decl → Bool
  | .const decl => decl.values.length == 1
  | _ => false

/-- The role of a declaration; none if it does not contribute. -/
def role? (decl : Decl) : Option Role :=
  if decl.isStruct then some .struct
  else if decl.isInterface then some .interface
  else if decl.isAlias then some .alias
  else if decl.isAliasValue then some .aliasValue
  else none

end Decl

end GoAtlas
