import GoAtlas.GoType.Resolve
import GoAtlas.World.Basic

/-!
# Collecting the functions of a file

Every function of a file is recorded with its parameters and results, one entry
for each name and one with an empty name where there is none.  Parameters are
visited before results, and marks on imports are made along the way.
-/

namespace GoAtlas

/-- The entries of one member of a parameter list. -/
def Member.params (member : FieldDecl) (type : GoType) : List FuncParam :=
  match member.names with
  | [] => [⟨"", type⟩]
  | names => names.map fun name => ⟨name, type⟩

/-- The entries of a parameter list. -/
def resolveParams : List FieldDecl → ImportTable → TypeExpr.Resolved (List FuncParam)
  | [], imports => (.ok [], imports)
  | member :: rest, imports =>
      (member.type.resolve imports).andThen fun type imports =>
        (resolveParams rest imports).map (member.params type ++ ·)

/-- The model of a function in a file with the given imports. -/
def FuncDecl.resolve (decl : FuncDecl) (imports : ImportTable) : TypeExpr.Resolved FuncModel :=
  (resolveParams decl.params imports).andThen fun params imports =>
    (resolveParams decl.results imports).map fun returns => ⟨decl.name, params, returns⟩

/-- Records the functions among some declarations; of two functions of one name
the later one stays. -/
def FuncFile.addAll (file : FuncFile) : List Decl → Except Fault FuncFile
  | [] => .ok file
  | .func decl :: rest =>
      match decl.resolve file.imports with
      | (.error fault, _) => .error fault
      | (.ok model, imports) =>
          FuncFile.addAll
            { file with functions := file.functions.insert model.name model, imports } rest
  | _ :: rest => file.addAll rest

/-- What a file contributes in functions. -/
def GoFile.collectFunctions (name : String) (file : GoFile) : Except Fault FuncFile :=
  match ImportTable.ofDecls file.imports with
  | .error fault => .error fault
  | .ok imports => FuncFile.addAll { name, imports } file.decls

end GoAtlas
