import GoAtlas.Decl.Basic
import GoAtlas.Literal
import GoAtlas.Text.Blank

/-!
# The import table of a file

Inside a file an imported package goes by its local name: the one given with the
import, or else the last segment of its path.  The table also notes which
imports the captured types refer to, because only those are worth following.
-/

namespace GoAtlas

/-- An imported package. -/
structure Import where
  /-- The local name. -/
  name : String
  /-- The import path. -/
  fullName : String
  /-- Whether a captured type refers to the package. -/
  needed : Bool := false
deriving DecidableEq, Repr

/-- The imports of a file under their local names. -/
abbrev ImportTable := Table Import

/-- The part of a path after its last slash. -/
def lastSegment (path : String) : String :=
  String.ofList ((splitWhere (· == '/') path.toList).getLast?.getD [])

namespace ImportTable

/-- Notes that the package with the given local name is referred to.  A name
that is no import is left alone. -/
def need (imports : ImportTable) (name : String) : ImportTable :=
  imports.modify name fun entry => { entry with needed := true }

/-- Records one import.  An import whose path is no readable literal is left
out, but a path that is a lone character beyond ASCII is a failure. -/
def add (imports : ImportTable) (decl : ImportDecl) : Except Fault ImportTable :=
  match Literal.unquote decl.path with
  | .ok fullName =>
      let name := decl.localName.getD (lastSegment fullName)
      .ok (imports.insert name { name, fullName })
  | .error (.literal .loneCharacter text) => .error (.literal .loneCharacter text)
  | .error _ => .ok imports

/-- The table of a list of imports; of two imports with one local name the later
one stays. -/
def ofDecls (decls : List ImportDecl) : Except Fault ImportTable :=
  decls.foldlM add Table.empty

end ImportTable

end GoAtlas
