import GoAtlas.Files.Ignore
import GoAtlas.Files.Tree

/-!
# Listed files

Which files of a directory are listed.  Files with a dot in front of their name are left
out, and rules in the directory and those above it leave out more files or bring some
back.

Rules stand in files named `.ignore`, and inside a repository also in files named
`.gitignore`, in the file `info/exclude` of the repository and in a file of the user.  Of
one kind of file the deepest one with a rule for the file decides; of the kinds, the first
in the order given here.
-/

namespace GoAtlas

/-! ## The file of the user -/

namespace UserRules

/-- The blanks of ASCII. -/
def isAsciiBlank (c : Char) : Bool := c == ' ' || ('\t' ≤ c && c ≤ '\r')

/-- A text without the blanks in front. -/
def skipBlanks (text : List Char) : List Char := text.dropWhile isAsciiBlank

/-- Whether only blanks come before the end of a line or of the text. -/
def atLineEnd (text : List Char) : Bool :=
  (text.takeWhile isAsciiBlank).contains '\n' || (skipBlanks text).isEmpty

/-- Whether only blanks and at most one quote come before the end of a line or of the
text. -/
def endsValue (text : List Char) : Bool :=
  atLineEnd text ||
    match skipBlanks text with
    | '"' :: rest => atLineEnd rest
    | _ => false

/-- The shortest beginning without blanks that can be a value. -/
def shortestValue? : List Char → Option (List Char)
  | [] => none
  | c :: rest =>
      if isAsciiBlank c then none
      else if endsValue rest then some [c]
      else (shortestValue? rest).map (c :: ·)

/-- The value behind an equals sign, possibly in quotes. -/
def value? (text : List Char) : Option (List Char) :=
  let text := skipBlanks text
  match text with
  | '"' :: rest => (shortestValue? (skipBlanks rest)).orElse fun _ => shortestValue? text
  | _ => shortestValue? text

/-- The text behind a word, in capitals or not. -/
def afterWord? : (word text : List Char) → Option (List Char)
  | [], text => some text
  | _ :: _, [] => none
  | c :: word, d :: text => if c = d.toLower then afterWord? word text else none

/-- The value of the setting at the start of a line, if it is the one for the file of
rules. -/
def setting? (line : List Char) : Option (List Char) :=
  match (afterWord? "excludesfile".toList (skipBlanks line)).map skipBlanks with
  | some ('=' :: rest) => value? rest
  | _ => none

/-- The texts that start behind a line break. -/
def lineStarts : List Char → List (List Char)
  | [] => []
  | c :: rest => if c = '\n' then rest :: lineStarts rest else lineStarts rest

/-- The path of the file of rules that the text of a configuration names.  A tilde stands
for the home directory. -/
def named? (home text : String) : Option String :=
  ((text.toList :: lineStarts text.toList).findSome? setting?).map fun value =>
    String.ofList (value.flatMap fun c => if c = '~' then home.toList else [c])

end UserRules

namespace FileTree

/-- The configuration files of a user, and the file of rules when none of them names
one. -/
def userFiles (home : String) : List String × String :=
  let dir := Path.join (Path.join home ".config") "git"
  ([Path.join home ".gitconfig", Path.join dir "config"], Path.join dir "ignore")

/-- The path of the file of rules of the user with a home directory. -/
def userRulesFile (tree : FileTree) (home : String) : String :=
  let (configurations, other) := userFiles home
  (configurations.findSome? fun path =>
    (tree.read? path).bind (UserRules.named? home)).getD other

/-- The rules of the user, which are about paths below the current directory. -/
def userRules (tree : FileTree) (home : Option String) : IgnoreRules :=
  .read tree.currentPath ((home.bind fun home => tree.read? (tree.userRulesFile home)).getD "")

/-! ## Repositories -/

/-- The first line of a file. -/
def firstLine? (tree : FileTree) (path : String) : Option String :=
  (tree.read? path).bind fun text => (lines text.toList).head?.map String.ofList

/-- The directory of the repository data, where the file `.git` leads somewhere else. -/
def linkedData? (tree : FileTree) (link : String) : Option String :=
  (Path.after? "gitdir: " link).bind fun dir =>
    (tree.firstLine? (Path.join dir "commondir")).map fun common =>
      if common.toList.head? == some '.' then Path.join dir common else common

/-- The directory of the repository data of a directory. -/
def repositoryData? (tree : FileTree) (place : List String) : Option String :=
  let path := Path.ofNames (place ++ [".git"])
  match tree.node? (place ++ [".git"]) with
  | some (.file _) => (tree.firstLine? path).bind tree.linkedData?
  | _ => some path

/-- Whether a place is the top of a repository. -/
def isRepository (tree : FileTree) (place : List String) : Bool :=
  (tree.node? (place ++ [".git"])).isSome || (tree.node? (place ++ [".jj"])).isSome

/-! ## Levels -/

/-- A directory that a listed file is in. -/
structure Level where
  place : List String
  /-- The path by which the directory is known. -/
  dir : String
  /-- The path of the file as it is told to the rules of the directory. -/
  file : String

/-- The verdict on the file of a level by rules with a text. -/
def Level.verdict? (level : Level) (text : Option String) : Option Bool :=
  text.bind fun text => (IgnoreRules.read level.dir text).verdict? level.file

/-- The levels of the file with a name in a directory that is given by a path and by its
place, the deepest first.  The directory itself sees the path of the file as it is put
together, those above it see an absolute path. -/
def levels (place : List String) (path name : String) : List Level :=
  let file := Path.withoutDot (Path.join path name)
  let below := ((Path.after? (Path.withoutDot path) file).map Path.withoutSlash).getD file
  let absolute := Path.join (Path.ofNames place) below
  { place, dir := path, file } ::
    (List.range place.length).reverse.map fun depth =>
      { place := place.take depth, dir := Path.ofNames (place.take depth), file := absolute }

/-- The levels up to the first repository among them; none if there is no repository. -/
def levelsInRepository (tree : FileTree) (levels : List Level) : List Level :=
  let inside := levels.takeWhile fun level => !tree.isRepository level.place
  if inside.length < levels.length then levels.take (inside.length + 1) else []

/-- The text of the file with a name in the directory of a level. -/
def textIn (tree : FileTree) (name : String) (level : Level) : Option String :=
  tree.read? (Path.ofNames (level.place ++ [name]))

/-- The text of the file of rules in the repository data of a level. -/
def excludeText (tree : FileTree) (level : Level) : Option String :=
  (tree.repositoryData? level.place).bind fun dir =>
    tree.read? (Path.join (Path.join dir "info") "exclude")

/-- Whether the file with a name is left out when a directory is listed, which is given by
a path and by its place. -/
def isIgnored (tree : FileTree) (home : Option String) (place : List String)
    (path name : String) : Bool :=
  let levels := levels place path name
  let inside := tree.levelsInRepository levels
  let verdict :=
    (levels.findSome? fun level => level.verdict? (tree.textIn ".ignore" level)).orElse fun _ =>
      (inside.findSome? fun level =>
          level.verdict? (tree.textIn ".gitignore" level)).orElse fun _ =>
        (inside.findSome? fun level => level.verdict? (tree.excludeText level)).orElse fun _ =>
          if inside.isEmpty then none
          else (tree.userRules home).verdict? (Path.withoutDot (Path.join path name))
  verdict.getD (name.toList.head? == some '.')

end FileTree

end GoAtlas
