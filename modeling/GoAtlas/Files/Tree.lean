import GoAtlas.Files.Path
import GoAtlas.Table

/-!
# File trees

A file tree holds files and directories under their absolute paths, and a current
directory that relative paths start from.  There are no links, so every path that leads
somewhere leads to one place, given by the names on the way from the root.

A path is followed from left to right: what stands before a slash has to be a directory,
also when nothing but a dot or nothing at all follows.
-/

namespace GoAtlas

/-- What can stand under a path. -/
inductive FileNode where
  | file (text : String)
  | directory
deriving DecidableEq, Repr

/-- Files and directories, and the current directory. -/
structure FileTree where
  /-- Everything but the root under its absolute path. -/
  nodes : Table FileNode := Table.empty
  /-- The names that lead to the current directory. -/
  current : List String := []
deriving Repr

namespace FileTree

/-- What stands where the names lead from the root. -/
def node? (tree : FileTree) (names : List String) : Option FileNode :=
  if names.isEmpty then some .directory else tree.nodes.get? (Path.ofNames names)

/-! ## Following paths -/

/-- Where the pieces of a path lead from a place. -/
def follow? (tree : FileTree) : (place : List String) → (pieces : List String) →
    Option (List String)
  | place, [] => if (tree.node? place).isSome then some place else none
  | place, piece :: rest =>
      if tree.node? place = some .directory then
        if Path.isFiller piece then tree.follow? place rest
        else if piece = ".." then tree.follow? place.dropLast rest
        else tree.follow? (place ++ [piece]) rest
      else none

/-- Where paths of the same kind as `path` start. -/
def start (tree : FileTree) (path : String) : List String :=
  if Path.isAbsolute path then [] else tree.current

/-- The place that a path leads to. -/
def place? (tree : FileTree) (path : String) : Option (List String) :=
  if path.isEmpty then none else tree.follow? (tree.start path) (Path.pieces path)

/-- What a path leads to. -/
def find? (tree : FileTree) (path : String) : Option FileNode :=
  (tree.place? path).bind tree.node?

/-- Whether a path leads anywhere. -/
def exists? (tree : FileTree) (path : String) : Bool :=
  (tree.find? path).isSome

/-- Whether a path leads to a directory. -/
def isDirectory (tree : FileTree) (path : String) : Bool :=
  tree.find? path == some .directory

/-- The text of the file that a path leads to. -/
def read? (tree : FileTree) (path : String) : Option String :=
  match tree.find? path with
  | some (.file text) => some text
  | _ => none

/-- Whether a path leads to a file. -/
def isFile (tree : FileTree) (path : String) : Bool :=
  (tree.read? path).isSome

/-- The absolute path of the place that a path leads to, and the path itself if it leads
nowhere. -/
def canonical (tree : FileTree) (path : String) : String :=
  match tree.place? path with
  | some place => Path.ofNames place
  | none => path

/-- The text of the current directory. -/
def currentPath (tree : FileTree) : String :=
  Path.ofNames tree.current

/-- The files in a directory with their names, in order of the names. -/
def filesIn (tree : FileTree) (place : List String) : List (String × String) :=
  tree.nodes.entries.filterMap fun (key, node) =>
    match node, Path.componentsAfter? place (Path.names key) with
    | .file text, some [name] => some (name, text)
    | _, _ => none

/-! ## Changing a tree -/

/-- The tree with a node at a place. -/
def put (tree : FileTree) (place : List String) (node : FileNode) : FileTree :=
  { tree with nodes := tree.nodes.insert (Path.ofNames place) node }

/-- Creates the directories that the pieces of a path lead through, as far as they are
missing: the tree afterwards, and whether all of them are there. -/
def createAlong : FileTree → (place : List String) → (pieces : List String) → FileTree × Bool
  | tree, _, [] => (tree, true)
  | tree, place, piece :: rest =>
      if Path.isFiller piece then createAlong tree place rest
      else if piece = ".." then createAlong tree place.dropLast rest
      else
        match tree.node? (place ++ [piece]) with
        | some .directory => createAlong tree (place ++ [piece]) rest
        | some (.file _) => (tree, false)
        | none => createAlong (tree.put (place ++ [piece]) .directory) (place ++ [piece]) rest

/-- Creates a directory and those above it, as far as they are missing. -/
def createDirectories (tree : FileTree) (path : String) : FileTree × Bool :=
  tree.createAlong (tree.start path) (Path.pieces path)

/-- The place of the file that a path leads to or that can be created under it: the last
piece of the path is its name, and the rest leads to a directory. -/
def filePlace? (tree : FileTree) (path : String) : Option (List String) :=
  match (Path.pieces path).getLast? with
  | none => none
  | some name =>
      if Path.isFiller name || name == ".." then none
      else
        match tree.follow? (tree.start path) (Path.pieces path).dropLast with
        | none => none
        | some dir =>
            if tree.node? dir = some .directory ∧ tree.node? (dir ++ [name]) ≠ some .directory then
              some (dir ++ [name])
            else none

/-- The tree with a text in the file under a path, which is created if it is missing. -/
def write? (tree : FileTree) (path text : String) : Option FileTree :=
  (tree.filePlace? path).map fun place => tree.put place (.file text)

/-- Writes a file after creating the directories above it: the tree afterwards, and
whether the file has been written. -/
def writeDeep (tree : FileTree) (path text : String) : FileTree × Bool :=
  let made :=
    match Path.parent? path with
    | none => (tree, true)
    | some dir => tree.createDirectories dir
  if made.2 then
    match made.1.write? path text with
    | some tree => (tree, true)
    | none => (made.1, false)
  else made

/-- The tree without what stands at a place and below it. -/
def removeAt (tree : FileTree) (place : List String) : FileTree :=
  { tree with
    nodes := tree.nodes.filter fun key _ =>
      (Path.componentsAfter? place (Path.names key)).isNone }

/-- The tree without what a path leads to. -/
def remove (tree : FileTree) (path : String) : FileTree :=
  match tree.place? path with
  | some place => tree.removeAt place
  | none => tree

end FileTree

end GoAtlas
