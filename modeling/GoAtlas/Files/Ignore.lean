import GoAtlas.Files.Glob
import GoAtlas.Files.Path
import GoAtlas.Text.Blank

/-!
# Rules for ignored files

A rule leaves files out of a listing or brings them back.  Rules stand in files, one on a
line, and are about paths below a directory; of several rules for a file the last one
decides.
-/

namespace GoAtlas

/-- A rule for files. -/
structure IgnoreRule where
  glob : Glob
  /-- Whether files are brought back. -/
  negated : Bool
  /-- Whether the rule is for directories only. -/
  onlyDirectories : Bool

namespace IgnoreRule

/-- A line without the blanks at its end, unless a backslash keeps the last one. -/
def trimLine (line : List Char) : List Char :=
  if line.reverse.take 2 == [' ', '\\'] then line else trimEndWhile isBlank line

/-- The marks in front of a pattern: whether it is negated, whether it starts at the
directory of its file, and the rest. -/
def readMarks : List Char → Bool × Bool × List Char
  | '\\' :: '!' :: rest => (false, false, '!' :: rest)
  | '\\' :: '#' :: rest => (false, false, '#' :: rest)
  | '!' :: '/' :: rest => (true, true, rest)
  | '!' :: rest => (true, false, rest)
  | '/' :: rest => (false, true, rest)
  | rest => (false, false, rest)

/-- The slash at the end of a pattern, which restricts it to directories: whether there
is one, and the pattern without it and a backslash in front of it. -/
def readEnd (pattern : List Char) : Bool × List Char :=
  match pattern.reverse with
  | '/' :: '\\' :: rest => (true, rest.reverse)
  | '/' :: rest => (true, rest.reverse)
  | _ => (false, pattern)

/-- The pattern to match against a whole path.  A pattern without a slash may match in
any directory, and two stars at the end stand for what is inside a directory only. -/
def complete (anchored : Bool) (pattern : List Char) : List Char :=
  let hasStars := pattern.take 3 == ['*', '*', '/'] || pattern == ['*', '*']
  let placed :=
    if !anchored && !pattern.contains '/' && !hasStars then "**/".toList ++ pattern else pattern
  if placed.reverse.take 3 == ['*', '*', '/'] then placed ++ "/*".toList else placed

/-- The rule in a line, if there is one. -/
def read? (line : List Char) : Option IgnoreRule :=
  if line.head? == some '#' then none
  else
    let line := trimLine line
    if line.isEmpty then none
    else
      let (negated, anchored, pattern) := readMarks line
      let (onlyDirectories, pattern) := readEnd pattern
      (Glob.read? (complete anchored pattern)).map fun glob => ⟨glob, negated, onlyDirectories⟩

/-- The rules in the text of a file. -/
def readAll (text : String) : List IgnoreRule :=
  (lines (text.toList.dropWhile (· == '\uFEFF'))).filterMap read?

/-- Whether the rules leave a file out, if one of them is for it. -/
def verdict? (rules : List IgnoreRule) (path : String) : Option Bool :=
  let last := rules.reverse.find? fun rule => !rule.onlyDirectories && rule.glob.describes path
  last.map fun rule => !rule.negated

end IgnoreRule

/-- Rules that speak about paths below a directory. -/
structure IgnoreRules where
  /-- The path of the directory. -/
  root : String
  rules : List IgnoreRule

namespace IgnoreRules

/-- The rules in the text of a file, about paths below a directory. -/
def read (dir text : String) : IgnoreRules :=
  { root := Path.withoutDot dir, rules := IgnoreRule.readAll text }

/-- A path as the rules see it: what follows the text of the directory, if that is in
front, and otherwise the path as it is. -/
def view (rules : IgnoreRules) (path : String) : String :=
  let path := Path.withoutDot path
  if rules.root == "." || !path.toList.contains '/' then path
  else ((Path.after? rules.root path).map Path.withoutSlash).getD path

/-- Whether the rules leave a file out, if one of them is for it. -/
def verdict? (rules : IgnoreRules) (path : String) : Option Bool :=
  IgnoreRule.verdict? rules.rules (rules.view path)

end IgnoreRules

end GoAtlas
