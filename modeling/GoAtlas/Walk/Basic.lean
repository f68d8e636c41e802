import GoAtlas.Collect.Basic
import GoAtlas.Collect.Functions
import GoAtlas.World.Basic

/-!
# Walking a code base

A walk starts at a place, collects every file of every package found there, and goes
on to the places of the imports that the collected types refer to.  The walk has a
state because several targets can be walked one after another: a place is parsed at
most once, whatever leads to it.

Under a depth limit a place may first be reached so deep that its imports are not
followed.  When it is reached again closer to a target, its imports are followed from
there.  What an import that leads nowhere gives is a report, made when the imports of
its place are followed for the first time.

The recursion descends on a bound for the nesting of visits.  `Codebase.nesting` is
large enough for every walk: without a depth limit each visit that goes on enters a new
place of the code base, and with a limit visits are nested only up to the limit.
-/

namespace GoAtlas

/-- A place that packages can be found at. -/
structure Place where
  /-- What identifies the place. -/
  key : String
  /-- The path by which it was reached. -/
  path : String
deriving DecidableEq, Repr

/-- What a walk can ask of a code base. -/
structure Codebase where
  /-- The places there are. -/
  places : List String
  /-- The packages at a place, if it can be parsed. -/
  parse? : String → Option (Table Package)
  /-- Why a place cannot be parsed. -/
  refusal : Place → Fault
  /-- The place that a path denotes. -/
  locate : String → Except Fault Place
  /-- The path of an imported package in the workspace. -/
  workspace? : String → Option String
  /-- The path of an imported package in the system library. -/
  system? : String → Option String
  /-- The import path of the package that a file belongs to. -/
  fullName? : String → Option String

/-- How far a walk goes and what it keeps. -/
structure WalkOptions where
  /-- The names of packages that are neither kept nor followed. -/
  exclude : List String
  /-- The number of imports that may lie between a target and a place. -/
  maxDepth : Option Nat := none
  /-- Whether files that contribute nothing are kept. -/
  keepEmpty : Bool := false
deriving DecidableEq, Repr

/-- What is known of a parsed place. -/
structure Visit where
  /-- The least depth at which it was reached. -/
  depth : Nat
  /-- The needed imports of its files under their import paths. -/
  imports : Table Import
  /-- Whether the imports have been followed. -/
  followed : Bool
deriving Repr

/-- The state of a walk. -/
structure Walk where
  /-- The parsed places. -/
  visited : Table Visit := Table.empty
  /-- The paths that were parsed, or could not be parsed, in order. -/
  order : List String := []
  world : World FileModel := {}
  diagnostics : List Diagnostic := []
deriving Repr

/-- How a walk ends. -/
inductive Outcome where
  | done
  | failed (fault : Fault)
  /-- The bound on the nesting was too small. -/
  | exhausted
deriving DecidableEq, Repr

namespace Codebase

/-- The packages at a place. -/
def packages? (base : Codebase) (key : String) : Option (Table Package) :=
  if base.places.contains key then base.parse? key else none

/-- The path that an import leads to.  A path of several segments is looked up in the
workspace first and then in the system library, a single segment only there. -/
def resolve? (base : Codebase) (fullName : String) : Option String :=
  if fullName.toList.contains '/' then
    match base.workspace? fullName with
    | some path => some path
    | none => base.system? fullName
  else base.system? fullName

/-- A bound on the nesting of visits. -/
def nesting (base : Codebase) (options : WalkOptions) : Nat :=
  match options.maxDepth with
  | none => base.places.length + 1
  | some limit => limit + 1

end Codebase

/-- Whether imports are no longer followed at a depth. -/
def WalkOptions.stopsAt (options : WalkOptions) (depth : Nat) : Bool :=
  match options.maxDepth with
  | none => false
  | some limit => limit ≤ depth

/-- The files of the packages that are not excluded, each with the name of its
package and its own. -/
def WalkOptions.files (options : WalkOptions) (packages : Table Package) :
    List (String × String × GoFile) :=
  (packages.entries.filter fun entry => !options.exclude.contains entry.1).flatMap fun entry =>
    entry.2.files.entries.map fun file => (entry.1, file.1, file.2)

namespace Walk

/-! ## Collecting a place -/

/-- The needed imports together with those of another file.  Two files may import one
package under different names; the first stays. -/
def mergeNeeded (needed : Table Import) (imports : ImportTable) : Table Import :=
  (imports.values.filter (·.needed)).foldl (fun needed entry =>
    if needed.contains entry.fullName then needed else needed.insert entry.fullName entry) needed

/-- Keeps what a file contributes, unless it is nothing. -/
def store (walk : Walk) (base : Codebase) (options : WalkOptions) (package fileName : String)
    (file : FileModel) : Walk :=
  if file.isEmpty && !options.keepEmpty then walk
  else { walk with world := walk.world.addFile package fileName (base.fullName? fileName) file }

/-- Collects files up to the first that fails.  The result is the imports they need
in addition to `needed`. -/
def collectFiles (base : Codebase) (options : WalkOptions) (walk : Walk)
    (needed : Table Import) :
    List (String × String × GoFile) → Except Fault (Table Import) × Walk
  | [] => (.ok needed, walk)
  | (package, fileName, file) :: rest =>
      match file.collect fileName with
      | .error fault => (.error fault, walk)
      | .ok collected =>
          let walk := { walk with diagnostics := walk.diagnostics ++ collected.diagnostics }
          collectFiles base options (walk.store base options package fileName collected.file)
            (mergeNeeded needed collected.file.imports) rest

/-! ## Following imports -/

/-- Records a visit of a place. -/
def setVisit (walk : Walk) (place : Place) (visit : Visit) : Walk :=
  { walk with visited := walk.visited.insert place.key visit }

/-- Reports an import of a place that leads nowhere. -/
def reportUnresolved (walk : Walk) (place : Place) (fullName : String) : Walk :=
  { walk with
    diagnostics := walk.diagnostics ++
      [⟨place.path, fullName, .unresolvedImport, fullName ++ " not found"⟩] }

/-- Follows imports of a place one after another with `next`, up to the first that
does not end well, and reports those that lead nowhere if asked to. -/
def followEach (base : Codebase) (next : String → Walk → Outcome × Walk) (place : Place)
    (report : Bool) : List Import → Walk → Outcome × Walk
  | [], walk => (.done, walk)
  | entry :: rest, walk =>
      match base.resolve? entry.fullName with
      | some path =>
          match next path walk with
          | (.done, walk) => followEach base next place report rest walk
          | ended => ended
      | none =>
          followEach base next place report rest
            (if report then walk.reportUnresolved place entry.fullName else walk)

/-- Follows the imports of a place visited at the given depth, unless that is at the
limit. -/
def follow (base : Codebase) (options : WalkOptions) (next : String → Walk → Outcome × Walk)
    (place : Place) (depth : Nat) (visit : Visit) (walk : Walk) : Outcome × Walk :=
  if options.stopsAt depth then (.done, walk)
  else
    followEach base next place (!visit.followed) visit.imports.values
      (walk.setVisit place { visit with followed := true })

/-! ## Visiting -/

/-- Visits the place that a path denotes, at the given depth. -/
def visit (base : Codebase) (options : WalkOptions) :
    (nesting depth : Nat) → String → Walk → Outcome × Walk
  | 0, _, _, walk => (.exhausted, walk)
  | nesting + 1, depth, path, walk =>
      match base.locate path with
      | .error fault => (.failed fault, walk)
      | .ok place =>
          match walk.visited.get? place.key with
          | some known =>
              if known.depth ≤ depth || options.maxDepth.isNone then (.done, walk)
              else
                let closer := { known with depth }
                follow base options (visit base options nesting (depth + 1)) place depth closer
                  (walk.setVisit place closer)
          | none =>
              let walk := { walk with order := walk.order ++ [place.path] }
              match base.packages? place.key with
              | none => (.failed (base.refusal place), walk)
              | some packages =>
                  match collectFiles base options walk Table.empty (options.files packages) with
                  | (.error fault, walk) => (.failed fault, walk)
                  | (.ok imports, walk) =>
                      let new : Visit := { depth, imports, followed := false }
                      follow base options (visit base options nesting (depth + 1)) place depth new
                        (walk.setVisit place new)

/-- Walks a target and everything it needs. -/
def run (base : Codebase) (options : WalkOptions) (walk : Walk) (target : String) :
    Outcome × Walk :=
  visit base options (base.nesting options) 0 target walk

/-- Whether the place that a path denotes has been parsed. -/
def isVisited (base : Codebase) (walk : Walk) (path : String) : Bool :=
  match base.locate path with
  | .ok place => walk.visited.contains place.key
  | .error _ => false

end Walk

/-! ## Functions of a target -/

namespace Codebase

/-- Collects the functions of files up to the first that fails. -/
def collectFunctions (base : Codebase) (world : World FuncFile) :
    List (String × String × GoFile) → Except Fault (World FuncFile)
  | [] => .ok world
  | (package, fileName, file) :: rest =>
      match file.collectFunctions fileName with
      | .error fault => .error fault
      | .ok model =>
          base.collectFunctions
            (world.addFile package fileName (base.fullName? fileName) model) rest

/-- The functions of the packages at a target; no import is followed and no package
excluded. -/
def functions (base : Codebase) (target : String) : Except Fault (World FuncFile) :=
  match base.locate target with
  | .error fault => .error fault
  | .ok place =>
      match base.packages? place.key with
      | none => .error (base.refusal place)
      | some packages =>
          base.collectFunctions {} (WalkOptions.files { exclude := [] } packages)

end Codebase

end GoAtlas
