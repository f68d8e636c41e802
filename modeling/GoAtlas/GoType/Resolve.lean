import GoAtlas.GoType.Basic
import GoAtlas.Import

/-!
# From type expressions to types

`TypeExpr.resolve` gives the type that an expression denotes.  Members are
visited from left to right, the table of imports is threaded through, and each
selector met marks its package as needed.  The first expression without a
counterpart stops the visit; the marks made before it stay.
-/

namespace GoAtlas.TypeExpr

/-- A result together with the imports as they are after it. -/
abbrev Resolved (α : Type) := Except Fault α × ImportTable

/-- Applies a constructor to a result. -/
def Resolved.map {α β : Type} (f : α → β) : Resolved α → Resolved β
  | (.ok a, imports) => (.ok (f a), imports)
  | (.error fault, imports) => (.error fault, imports)

/-- Goes on from a result if there is one. -/
def Resolved.andThen {α β : Type} (first : Resolved α)
    (next : α → ImportTable → Resolved β) : Resolved β :=
  match first with
  | (.ok a, imports) => next a imports
  | (.error fault, imports) => (.error fault, imports)

mutual

/-- The type denoted by an expression in a file with the given imports. -/
def resolve : TypeExpr → ImportTable → Resolved GoType
  | .ident name, imports => (.ok (.primitive name), imports)
  | .selector package name, imports => (.ok (.selector package name), imports.need package)
  | .array elem, imports => (elem.resolve imports).map .array
  | .map key value, imports =>
      (key.resolve imports).andThen fun key imports =>
        (value.resolve imports).map (.map key)
  | .pointer target, imports => (target.resolve imports).map .pointer
  | .struct _ true, imports => (.error (.incompleteStruct "anonymous struct"), imports)
  | .struct fields false, imports => (resolveMembers fields imports).map .struct
  | .interface elements, imports => (resolveMembers elements imports).map .interface
  | .func params results, imports =>
      (resolveMembers params imports).andThen fun args imports =>
        (resolveMembers results imports).map (.func args)
  | .chan dir elem, imports => (elem.resolve imports).map fun elem => .channel elem dir
  | .ellipsis elem, imports => (elem.resolve imports).map .ellipsis
  | .unsupported kind, imports => (.error (.unsupportedType kind), imports)

/-- The types of a list of members, one for each. -/
def resolveMembers : List (Member TypeExpr) → ImportTable → Resolved (List GoType)
  | [], imports => (.ok [], imports)
  | ⟨_, type, _⟩ :: rest, imports =>
      (type.resolve imports).andThen fun type imports =>
        (resolveMembers rest imports).map (type :: ·)

end

end GoAtlas.TypeExpr
