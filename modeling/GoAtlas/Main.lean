import GoAtlas.Command.Run

/-!
# The program

Reads what a run can look at into a file tree, runs the command on it, and carries out
what the run has written.  Of a run's result nothing is decided here.
-/

namespace GoAtlas.Main

/-- The names of files whose texts matter beside source files. -/
def isNoted (name : String) : Bool :=
  hasEnding ".go" name ||
    ["go.mod", ".ignore", ".gitignore", ".git", "commondir", "exclude"].contains name

/-- The file tree with the file or directory under a path, without what is in it. -/
def addNode (tree : FileTree) (path : String) (keepText : Bool) : IO FileTree := do
  let file := (← IO.currentDir) / path
  if ← file.isDir then
    return (tree.createDirectories path).1
  else if ← file.pathExists then
    let text ← if keepText then (IO.FS.readFile file) <|> pure "" else pure ""
    return (tree.writeDeep path text).1
  else
    return tree

/-- The file tree with everything below a path. -/
partial def addBelow (tree : FileTree) (path : String) : IO FileTree := do
  let dir := (← IO.currentDir) / path
  let mut tree ← addNode tree path (isNoted ((Path.names path).getLast?.getD ""))
  if ← dir.isDir then
    for entry in ← dir.readDir do
      tree ← addBelow tree (Path.join path entry.fileName)
  return tree

/-- The file tree with the manifests and the rules for ignored files in the directories
that a path leads through. -/
def addAbove (tree : FileTree) (path : String) : IO FileTree := do
  let absolute := (Path.absolute? tree.currentPath path).getD path
  let mut tree := tree
  for dir in Path.ancestors absolute do
    for name in ["go.mod", ".ignore", ".gitignore", ".git", ".jj", ".git/info/exclude"] do
      tree ← addNode tree (Path.join dir name) true
    match (tree.firstLine? (Path.join dir ".git")).bind (Path.after? "gitdir: ") with
    | none => pure ()
    | some data =>
        tree ← addNode tree (Path.join data "commondir") true
        match tree.repositoryData? (Path.names dir) with
        | some data => tree ← addNode tree (Path.join data "info/exclude") true
        | none => pure ()
  return tree

/-- The file tree with the rules for ignored files of the user. -/
def addUser (tree : FileTree) (env : Environment) : IO FileTree := do
  match env.home with
  | none => return tree
  | some home =>
      let mut tree := tree
      for path in (FileTree.userFiles home).1 do
        tree ← addNode tree path true
      addNode tree (tree.userRulesFile home) true

/-- The paths that a request leads to besides its target. -/
def roots (request : Request) (settings : Settings) (env : Environment) : List String :=
  [request.workspaceRoot, settings.paths.workspaceRoot, request.systemRoot,
    settings.paths.systemRoot, settings.paths.moduleCache, env.moduleCache,
    env.goRoot.map (Path.join · "src"),
    (Locator.goPath? env).map fun path => Path.join (Path.join path "pkg") "mod"].filterMap id

/-- The file tree that a request can look at. -/
def addRequest (tree : FileTree) (request : Request) (settings : Settings) (env : Environment) :
    IO FileTree := do
  let mut tree ← addAbove (← addUser tree env) request.target
  tree ← addBelow tree request.target
  tree ← addBelow tree (Locator.ofTarget tree request.target).workspaceRoot
  for root in roots request settings env do
    tree ← addBelow (← addAbove tree root) root
  match request.output with
  | some path =>
      match Path.parent? path with
      | some dir => tree ← addNode tree (if dir.isEmpty then "." else dir) false
      | none => pure ()
      addNode tree path false
  | none => return tree

/-- The file tree that a command can look at. -/
def snapshot (invocation : Invocation) (env : Environment) : IO FileTree := do
  let here := (← IO.currentDir).toString
  let bare : FileTree := { current := Path.names here }
  let tree ← addNode (bare.createDirectories here).1 (invocation.settingsFile env) true
  let settings := (invocation.settings tree env).toOption.getD {}
  match invocation.command with
  | .structs request _ => addRequest tree request settings env
  | .funcs request => addRequest tree request settings env
  | _ => return tree

/-- Writes the files in which a tree differs from an earlier one. -/
def carryOut (before after : FileTree) : IO Unit := do
  for (path, node) in after.nodes.entries do
    match node with
    | .directory =>
        if (before.nodes.get? path).isNone then IO.FS.createDirAll path
    | .file text =>
        if before.nodes.get? path ≠ some (.file text) then IO.FS.writeFile path text

/-- The environment of this run. -/
def environment : IO Environment := do
  return {
    home := (← IO.getEnv "HOME").filter fun path => !path.isEmpty
    goRoot := ← IO.getEnv "GOROOT"
    goPath := ← IO.getEnv "GOPATH"
    moduleCache := ← IO.getEnv "GOMODCACHE" }

end GoAtlas.Main

open GoAtlas

/-- Runs the program. -/
def main (args : List String) : IO UInt32 := do
  let env ← Main.environment
  let before ←
    match Invocation.read args with
    | .ok invocation => Main.snapshot invocation env
    | .error _ => pure {}
  let (after, ending) := runProgram before env args
  Main.carryOut before after
  match ending with
  | .success text notes =>
      (← IO.getStdout).putStr text
      for note in notes do
        (← IO.getStderr).putStrLn note
  | .failure failure => (← IO.getStderr).putStrLn ("Error: " ++ failure.message)
  | .misuse => (← IO.getStderr).putStr usage
  return ending.code.toUInt32
