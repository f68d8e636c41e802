import GoAtlas.Text.Blank
import GoAtlas.Text.Reader

/-!
# Paths

A path is a text with slashes.  What it denotes is given by its components: repeated
and trailing slashes add nothing, and neither does a dot, except in front of a
relative path.  Two dots stay as they are, because only the file system can tell
what they lead to.

Operations keep the text of their arguments wherever they can, so a path is shown the
way it was put together; two paths are the same place when their components agree.
-/

namespace GoAtlas.Path

/-- The texts between the slashes. -/
def pieces (path : String) : List String :=
  (splitWhere (· == '/') path.toList).map String.ofList

/-- Whether a path starts at the root. -/
def isAbsolute (path : String) : Bool :=
  path.toList.head? == some '/'

/-- Whether a path ends in a slash. -/
def endsInSlash (path : String) : Bool :=
  path.toList.getLast? == some '/'

/-- Whether a piece adds nothing to a path. -/
def isFiller (piece : String) : Bool :=
  piece == "" || piece == "."

/-- The components of a path.  The root is the component `/`, and a dot in front of a
relative path is a component. -/
def components (path : String) : List String :=
  let names := (pieces path).filter fun piece => !isFiller piece
  if isAbsolute path then "/" :: names
  else if (pieces path).head? == some "." then "." :: names
  else names

/-- The text of an absolute path with the given names. -/
def ofNames (names : List String) : String :=
  "/" ++ String.intercalate "/" names

/-- The names in an absolute path. -/
def names (path : String) : List String :=
  (pieces path).filter fun piece => !isFiller piece

/-- The text that all absolute paths with the same components share. -/
def key (path : String) : String :=
  ofNames (names path)

/-- The path `path` as seen from the directory `dir`. -/
def join (dir path : String) : String :=
  if isAbsolute path || dir.isEmpty then path
  else if endsInSlash dir then dir ++ path
  else dir ++ "/" ++ path

/-- The pieces without those at the end that add nothing. -/
def trimFillers (pieces : List String) : List String :=
  (pieces.reverse.dropWhile isFiller).reverse

/-- The path without its last component; there is none for the root and for the
empty path. -/
def parent? (path : String) : Option String :=
  match pieces path with
  | [] => none
  | first :: body =>
      match trimFillers body with
      | [] => if first == "" then none else some ""
      | kept =>
          let shorter := trimFillers kept.dropLast
          if isAbsolute path then some ("/" ++ String.intercalate "/" shorter)
          else some (String.intercalate "/" (first :: shorter))

/-- The path, the path without its last component, and so on. -/
def ancestors (path : String) : List String :=
  go path.length path
where
  /-- The path and at most `count` shorter ones. -/
  go : Nat → String → List String
    | 0, path => [path]
    | count + 1, path =>
        match parent? path with
        | some dir => path :: go count dir
        | none => [path]

/-- The components that follow those of `dir`, if `path` starts with them. -/
def componentsAfter? : (dir path : List String) → Option (List String)
  | [], path => some path
  | _ :: _, [] => none
  | c :: dir, d :: path => if c = d then componentsAfter? dir path else none

/-- Whether a component is the name of a file or directory. -/
def isName (component : String) : Bool :=
  component != "/" && component != "." && component != ".."

/-- The names by which `path` is reached from `dir`, if it lies below it. -/
def relativeTo? (dir path : String) : Option String :=
  (componentsAfter? (components dir) (components path)).map fun rest =>
    String.intercalate "/" (rest.filter isName)

/-! ## Beginnings by their text -/

/-- What follows the text `start` at the front of a path. -/
def after? (start path : String) : Option String :=
  (expect? start.toList path.toList).map String.ofList

/-- A path without one dot and slash in front. -/
def withoutDot (path : String) : String := (after? "./" path).getD path

/-- A path without one slash in front. -/
def withoutSlash (path : String) : String := (after? "/" path).getD path

/-! ## Absolute paths -/

/-- The path from the root that `path` denotes in the directory `cwd`, without
looking at the file system; there is none for the empty path.  A final slash stays,
and so do exactly two slashes at the front. -/
def absolute? (cwd path : String) : Option String :=
  if path.isEmpty then none
  else
    let doubled := (pieces path).take 2 == ["", ""] && (pieces path)[2]?.getD "" != ""
    let plain := ofNames (if isAbsolute path then names path else names cwd ++ names path)
    let rooted := if isAbsolute path && doubled then "/" ++ plain else plain
    some (if endsInSlash path && !endsInSlash rooted then rooted ++ "/" else rooted)

end GoAtlas.Path
