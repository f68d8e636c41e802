import GoAtlas.Files.Tree
import GoAtlas.Manifest.Basic
import GoAtlas.Manifest.Escape

/-!
# Locating packages

A locator knows where the packages of a workspace, of the modules it requires and of the
system library are kept.  It leads from import paths to paths in a file tree, and from
files back to the import paths of their packages.

A package of the workspace can be at several places.  They are tried in this order: below
the root if the import path starts with the path of the workspace's own module, among the
vendored packages, below the root under its full import path, and in the module cache.
-/

namespace GoAtlas

/-- What the environment of a run says about places. -/
structure Environment where
  home : Option String := none
  goRoot : Option String := none
  goPath : Option String := none
  moduleCache : Option String := none
deriving Repr

/-- The file name of manifests. -/
def manifestName : String := "go.mod"

namespace FileTree

/-- The manifest in the file that a path leads to. -/
def manifest? (tree : FileTree) (path : String) : Option Manifest :=
  (tree.read? path).bind Manifest.read?

/-- The path of the nearest manifest, in a directory or one of those it is in by its
text. -/
def findManifest? (tree : FileTree) (dir : String) : Option String :=
  ((Path.ancestors dir).map fun dir => Path.join dir manifestName).find? tree.isFile

end FileTree

/-- Where packages are kept. -/
structure Locator where
  workspaceRoot : String
  /-- The manifest of the workspace. -/
  manifest : Option Manifest := none
  systemRoot : Option String := none
  moduleCache : Option String := none
deriving Repr

namespace Locator

/-! ## Making a locator -/

/-- The locator for a workspace with the given root. -/
def ofRoot (tree : FileTree) (root : String) : Locator :=
  let root := tree.canonical root
  { workspaceRoot := root, manifest := tree.manifest? (Path.join root manifestName) }

/-- The locator for the workspace that a target belongs to: its root is the directory of
the nearest manifest, or the directory of the target. -/
def ofTarget (tree : FileTree) (target : String) : Locator :=
  let target := tree.canonical target
  let dir := if tree.isFile target then (Path.parent? target).getD "" else target
  match (tree.findManifest? dir).bind Path.parent? with
  | some root => ofRoot tree root
  | none => ofRoot tree dir

/-- The locator with roots for the system library and the module cache. -/
def withRoots (locator : Locator) (tree : FileTree) (system cache : Option String) : Locator :=
  { locator with systemRoot := system.map tree.canonical, moduleCache := cache.map tree.canonical }

/-- The path, if it leads to a directory. -/
def directory? (tree : FileTree) (path : String) : Option String :=
  if tree.isDirectory path then some path else none

/-- The system library that the environment names. -/
def systemFrom? (tree : FileTree) (env : Environment) : Option String :=
  env.goRoot.bind fun root => directory? tree (Path.join root "src")

/-- The directory that modules are kept below: the first one that the environment names,
or one in the home directory. -/
def goPath? (env : Environment) : Option String :=
  let named := (env.goPath.filter fun path => !path.isEmpty).map fun path =>
    String.ofList (path.toList.takeWhile (· != ':'))
  named.orElse fun _ => env.home.map fun home => Path.join home "go"

/-- The module cache that the environment names. -/
def cacheFrom? (tree : FileTree) (env : Environment) : Option String :=
  (env.moduleCache.filter fun path => !path.isEmpty).orElse fun _ =>
    (goPath? env).bind fun path => directory? tree (Path.join (Path.join path "pkg") "mod")

/-- The locator with the roots it lacks taken from the environment. -/
def completedBy (locator : Locator) (tree : FileTree) (env : Environment) : Locator :=
  locator.withRoots tree (locator.systemRoot.orElse fun _ => systemFrom? tree env)
    (locator.moduleCache.orElse fun _ => cacheFrom? tree env)

/-! ## From import paths to places -/

/-- The path of a package of the workspace's own module. -/
def ownPath? (locator : Locator) (importPath : String) : Option String :=
  (locator.manifest.bind fun manifest => manifest.strip? importPath).map
    (Path.join locator.workspaceRoot)

/-- The path of a vendored package. -/
def vendorPath (locator : Locator) (importPath : String) : String :=
  Path.join (Path.join locator.workspaceRoot "vendor") importPath

/-- The path of a package below the root under its full import path. -/
def plainPath (locator : Locator) (importPath : String) : String :=
  Path.join locator.workspaceRoot importPath

/-- The directory name of a required module in the module cache. -/
def cachedName (requirement : Requirement) : String :=
  escapeModulePath requirement.path ++ "@" ++ requirement.version

/-- What follows the path of a required module in an import path. -/
def afterModule (requirement : Requirement) (importPath : String) : String :=
  String.ofList ((importPath.toList.drop requirement.path.toList.length).dropWhile (· == '/'))

/-- The path of a package of a required module in the module cache. -/
def cachedPath? (locator : Locator) (importPath : String) : Option String :=
  match locator.moduleCache, locator.manifest with
  | some cache, some manifest =>
      (manifest.requirementFor? importPath).map fun requirement =>
        let dir := Path.join cache (cachedName requirement)
        let rest := afterModule requirement importPath
        if rest.isEmpty then dir else Path.join dir rest
  | _, _ => none

/-- The paths that a package of the workspace may have, in the order in which they are
tried. -/
def candidates (locator : Locator) (importPath : String) : List String :=
  (locator.ownPath? importPath).toList ++
    [locator.vendorPath importPath, locator.plainPath importPath] ++
    (locator.cachedPath? importPath).toList

/-- The path of a package of the workspace. -/
def workspace? (locator : Locator) (tree : FileTree) (importPath : String) : Option String :=
  (locator.candidates importPath).find? tree.exists?

/-- The path of a package of the system library. -/
def system? (locator : Locator) (tree : FileTree) (importPath : String) : Option String :=
  locator.systemRoot.bind fun root =>
    let path := Path.join root importPath
    if tree.exists? path then some path else none

/-! ## From files to import paths -/

/-- A path without the versions of modules. -/
def dropVersions (path : String) : String :=
  String.ofList (List.intercalate ['/']
    ((splitWhere (· == '/') path.toList).map fun segment => segment.takeWhile (· != '@')))

/-- The import path of a package with the given path below the root of the
workspace. -/
def nameInWorkspace? (locator : Locator) (path : String) : Option String :=
  match expect? "vendor/".toList path.toList with
  | some vendored => some (String.ofList vendored)
  | none =>
      match locator.manifest with
      | some manifest =>
          some (if path.isEmpty then manifest.module else manifest.module ++ "/" ++ path)
      | none => if path.isEmpty then none else some path

/-- The import path of the package in a directory. -/
def nameOf? (locator : Locator) (dir : String) : Option String :=
  match locator.systemRoot.bind fun root => Path.relativeTo? root dir with
  | some path => if path.isEmpty then none else some path
  | none =>
      match locator.moduleCache.bind fun root => Path.relativeTo? root dir with
      | some path => some (unescapeModulePath (dropVersions path))
      | none => (Path.relativeTo? locator.workspaceRoot dir).bind locator.nameInWorkspace?

/-- The import path of the package that a file belongs to. -/
def fullName? (locator : Locator) (tree : FileTree) (file : String) : Option String :=
  if tree.isDirectory file then locator.nameOf? file
  else (Path.parent? file).bind locator.nameOf?

end Locator

end GoAtlas
