import GoAtlas.Text.Blank
import GoAtlas.Text.Reader

/-!
# Module manifests

The file `go.mod` at the root of a module names the module and the versions of
the modules it requires.  `Manifest.read?` reads the directives that matter for
finding imported packages, `module`, `go` and `require`, and steps over all others,
whether they take one line or a block in parentheses.

An import path belongs to a module when it is the path of the module or continues
it after a slash (`belongsTo`).  Of the required modules that an import path belongs
to, the one with the longest path provides it.
-/

namespace GoAtlas

/-- A required module. -/
structure Requirement where
  path : String
  version : String
  /-- Whether the requirement is marked as indirect. -/
  indirect : Bool
deriving DecidableEq, Repr

/-- What a manifest says. -/
structure Manifest where
  /-- The path of the module. -/
  module : String := ""
  /-- The language version, if one is given. -/
  goVersion : Option String := none
  requires : List Requirement := []
deriving DecidableEq, Repr

namespace Manifest

/-! ## Reading -/

/-- The block that a line stands in. -/
inductive Block where
  | none
  | require
  | other
deriving DecidableEq, Repr

/-- What is known after some lines. -/
structure State where
  manifest : Manifest := {}
  block : Block := .none
deriving DecidableEq, Repr

/-- A line without its comment, and the text of the comment if there is one. -/
def splitComment (line : List Char) : List Char × Option (List Char) :=
  match cutAtPair '/' '/' line with
  | some (before, comment) => (before, some (trimBlanks comment))
  | none => (line, none)

/-- A module path without blanks and quotes around it. -/
def unquotePath (text : List Char) : List Char :=
  trimWhile (fun c => c == '"' || c == '`') (trimBlanks text)

/-- Whether a comment marks a requirement as indirect: one of its parts between
semicolons is the word `indirect`. -/
def isIndirect (comment : Option (List Char)) : Bool :=
  match comment with
  | none => false
  | some text =>
      (splitWhere (· == ';') text).any fun mark => trimBlanks mark == "indirect".toList

/-- Adds the requirement written as a path and a version; anything shorter adds
nothing. -/
def addRequirement (manifest : Manifest) (spec : List Char) (comment : Option (List Char)) :
    Manifest :=
  match words spec with
  | path :: version :: _ =>
      let requirement : Requirement := {
        path := String.ofList (unquotePath path)
        version := String.ofList version
        indirect := isIndirect comment }
      { manifest with requires := manifest.requires ++ [requirement] }
  | _ => manifest

/-- Reads a directive that stands in no block. -/
def readDirective (manifest : Manifest) (directive rest : List Char)
    (comment : Option (List Char)) : State :=
  if directive = "module".toList then
    { manifest := { manifest with module := String.ofList (unquotePath rest) } }
  else if directive = "go".toList then
    { manifest := { manifest with goVersion := some (String.ofList rest) } }
  else if directive = "require".toList then
    if rest = ['('] then { manifest, block := .require }
    else { manifest := manifest.addRequirement rest comment }
  else if rest.getLast? = some '(' then { manifest, block := .other }
  else { manifest }

/-- Reads one line. -/
def readLine (state : State) (line : List Char) : State :=
  let (before, comment) := splitComment line
  let text := trimBlanks before
  if text.isEmpty then state
  else
    match state.block with
    | .none =>
        let directive := text.takeWhile fun c => !isBlank c
        let rest := trimBlanks (text.dropWhile fun c => !isBlank c)
        readDirective state.manifest directive rest comment
    | .require =>
        if text = [')'] then { state with block := .none }
        else { state with manifest := state.manifest.addRequirement text comment }
    | .other => if text = [')'] then { state with block := .none } else state

/-- Reads the text of a manifest.  Without a module path there is none. -/
def read? (content : String) : Option Manifest :=
  let state := (lines content.toList).foldl readLine {}
  if state.manifest.module.isEmpty then none else some state.manifest

/-! ## Which module an import path belongs to -/

/-- What is left of an import path inside the module with the path `module`, if it
belongs to it. -/
def relativeTo? (module importPath : String) : Option String :=
  match expect? module.toList importPath.toList with
  | some [] => some ""
  | some ('/' :: rest) => some (String.ofList rest)
  | _ => none

/-- Whether an import path belongs to the module with the path `module`. -/
def belongsTo (module importPath : String) : Bool :=
  (relativeTo? module importPath).isSome

/-- What is left of an import path inside this module, if it belongs to it. -/
def strip? (manifest : Manifest) (importPath : String) : Option String :=
  relativeTo? manifest.module importPath

/-- The one of two requirements with the longer path, the second if they are
equally long. -/
def longer (best : Option Requirement) (next : Requirement) : Option Requirement :=
  match best with
  | none => some next
  | some known =>
      if known.path.utf8ByteSize ≤ next.path.utf8ByteSize then some next else some known

/-- The requirement that provides an import path: of those it belongs to, the one
with the longest path, and the last of these. -/
def requirementFor? (manifest : Manifest) (importPath : String) : Option Requirement :=
  (manifest.requires.filter fun req => belongsTo req.path importPath).foldl longer none

end Manifest

end GoAtlas
