import GoAtlas.Files.Tree
import GoAtlas.Locate
import GoAtlas.Settings.Toml

/-!
# The settings file

Settings are kept in a file, by default in the home directory.  A settings file is
replaced as a whole, and only if the new settings can be written as TOML.
-/

namespace GoAtlas.Settings

/-- The path of the settings file when none is given. -/
def defaultPath (env : Environment) : String :=
  Path.join (Path.join (env.home.getD ".") ".structgraph") "config.toml"

/-- The settings in the file under a path. -/
def load (tree : FileTree) (path : String) : Except Fault Settings :=
  match tree.read? path with
  | none => .error .io
  | some text =>
      match ofToml? text with
      | none => .error .settings
      | some settings => .ok settings

/-- The settings in the file under a path, and the default settings if there is no such
file. -/
def loadIfPresent (tree : FileTree) (path : String) : Except Fault Settings :=
  if tree.exists? path then load tree path else .ok {}

/-- The settings in the default file, and the default settings if it cannot be read. -/
def loadDefault (tree : FileTree) (env : Environment) : Settings :=
  match loadIfPresent tree (defaultPath env) with
  | .ok settings => settings
  | .error _ => {}

/-- Writes settings to the file under a path. -/
def save (settings : Settings) (tree : FileTree) (path : String) :
    FileTree × Except Fault Unit :=
  match settings.toToml with
  | .error fault => (tree, .error fault)
  | .ok text =>
      let written := tree.writeDeep path text
      (written.1, if written.2 then .ok () else .error .io)

end GoAtlas.Settings
