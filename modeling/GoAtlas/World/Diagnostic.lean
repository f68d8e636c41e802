/-!
# Diagnostics

A diagnostic reports something that was left out of the model without failing.
-/

namespace GoAtlas

/-- What was left out. -/
inductive DiagnosticKind where
  /-- A constant whose value is not a plain literal. -/
  | complexConstant
  /-- A tag value that cannot be read. -/
  | malformedTag
  /-- An import that leads nowhere. -/
  | unresolvedImport
deriving DecidableEq, Repr

/-- The name of a kind of diagnostics. -/
def DiagnosticKind.name : DiagnosticKind → String
  | .complexConstant => "complex_constant"
  | .malformedTag => "malformed_tag"
  | .unresolvedImport => "unresolved_import"

/-- A report of something left out. -/
structure Diagnostic where
  /-- The file or directory it was found in. -/
  file : String
  /-- The constant, tag or import concerned. -/
  subject : String
  kind : DiagnosticKind
  message : String
deriving DecidableEq, Repr

/-- The wording of a diagnostic. -/
def Diagnostic.text (diagnostic : Diagnostic) : String :=
  diagnostic.file ++ ": " ++ diagnostic.kind.name ++ " " ++ diagnostic.subject ++ ": " ++
    diagnostic.message

end GoAtlas
