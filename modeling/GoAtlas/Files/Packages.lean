import GoAtlas.Files.Listing
import GoAtlas.Locate
import GoAtlas.Source.File
import GoAtlas.Walk.Basic

/-!
# Code bases in a file tree

The packages at a path are those of its files with the ending `.go`, if the path leads to a
directory, and the one of its file otherwise.  Test files are left out of directories
unless they are asked for.  A file without a package clause belongs to no package.
-/

namespace GoAtlas

/-- Whether a text has the given ending. -/
def hasEnding (ending text : String) : Bool :=
  ending.toList.isSuffixOf text.toList

namespace FileTree

/-- Whether a file in a directory is parsed with it. -/
def isSource (includeTests : Bool) (name : String) : Bool :=
  hasEnding ".go" name && (includeTests || !hasEnding "_test.go" name)

/-- The source files of a directory with their texts. -/
def sourcesIn (tree : FileTree) (home : Option String) (includeTests : Bool)
    (place : List String) (path : String) : List (String × String) :=
  (tree.filesIn place).filter fun file =>
    isSource includeTests file.1 && !tree.isIgnored home place path file.1

/-- The packages of source files, given with their names and texts. -/
def packagesOf (sources : List (String × String)) : Table Package :=
  Package.ofFiles ((sources.map fun source => (source.1, GoFile.read source.2)).filter fun file =>
    !file.2.package.isEmpty)

/-- The packages at a path, if it leads anywhere. -/
def packages? (tree : FileTree) (home : Option String) (includeTests : Bool) (path : String) :
    Option (Table Package) :=
  match tree.place? path with
  | none => none
  | some place =>
      match tree.node? place with
      | some (.file text) => some (packagesOf [(path, text)])
      | some .directory =>
          some (packagesOf ((tree.sourcesIn home includeTests place path).map fun source =>
            (Path.join path source.1, source.2)))
      | none => none

/-- The place that a path denotes, whether there is anything or not. -/
def placeOf (tree : FileTree) (path : String) : Except Fault Place :=
  match Path.absolute? tree.currentPath path with
  | none => .error .io
  | some path => .ok ⟨tree.canonical path, tree.canonical path⟩

/-- The code base in a file tree, where imports lead to what a locator finds. -/
def codebase (tree : FileTree) (env : Environment) (locator : Locator) (includeTests : Bool) :
    Codebase where
  places := "/" :: tree.nodes.keys
  parse? := tree.packages? env.home includeTests
  refusal _ := .io
  locate := tree.placeOf
  workspace? := locator.workspace? tree
  system? := locator.system? tree
  fullName? := locator.fullName? tree

end FileTree

end GoAtlas
