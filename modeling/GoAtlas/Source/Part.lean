import GoAtlas.Source.Tree
import GoAtlas.Decl.Basic

/-!
# Parts of phrases and what they mean

What a phrase means depends on where it stands: `x` is a type in `[]x` and a value in
`x + 1`.  A part is therefore given all its meanings at once, and the phrase around it
takes the one that it needs.

Some phrases are only means of the grammar.  Their parts count as parts of the phrase
around them and play the role that they have there.
-/

namespace GoAtlas.Source

/-- What a phrase or token means, as far as it can stand for each of these. -/
structure Meaning where
  type : TypeExpr := .unsupported ""
  value : ValueExpr := .compound []
  /-- The fields, parameters or elements that it lists. -/
  members : List FieldDecl := []
  imports : List ImportDecl := []
  decls : List Decl := []

/-- A part of a phrase. -/
structure Part where
  symbol : Symbol
  label : Label
  /-- The text of a token. -/
  text : String
  /-- Whether something in it could not be read. -/
  broken : Bool
  meaning : Meaning

namespace Part

/-- Whether a token counts as a part in its own right, and not as punctuation. -/
def tokenCounts : Token → Bool
  | .identifier | .underscore | .newWord | .makeWord | .nilWord | .trueWord | .falseWord
  | .iotaWord | .rawString | .quotedString | .integer | .float | .imaginary | .rune => true
  | _ => false

/-- Whether a part counts in its own right: phrases do, and some tokens. -/
def counts (part : Part) : Bool :=
  match part.symbol with
  | .token token => tokenCounts token
  | .rule _ => true

/-- Whether a part is a phrase of a rule. -/
def isPhrase (rule : Rule) (part : Part) : Bool := part.symbol == .rule rule

/-- Whether a part is a token. -/
def isToken (token : Token) (part : Part) : Bool := part.symbol == .token token

/-- The part with a role, if it has none of its own. -/
def inRole (role : Option Role) (part : Part) : Part :=
  match role with
  | none => part
  | some role => { part with label := { part.label with role := some role } }

end Part

/-- The parts of a phrase. -/
abbrev Parts := List Part

namespace Parts

/-- The parts that count in their own right. -/
def proper (parts : Parts) : Parts := parts.filter (·.counts)

/-- The parts with a role. -/
def withRole (parts : Parts) (role : Role) : Parts :=
  parts.filter fun part => part.label.role == some role

/-- The first part with a role. -/
def role? (parts : Parts) (role : Role) : Option Part :=
  parts.find? fun part => part.label.role == some role

/-- Whether a token is among the parts. -/
def hasToken (parts : Parts) (token : Token) : Bool := parts.any (·.isToken token)

/-- What the first part with a role means as a type. -/
def typeOf (parts : Parts) (role : Role) : TypeExpr :=
  match parts.role? role with
  | some part => part.meaning.type
  | none => .unsupported ""

/-- The texts of the parts that are names. -/
def names (parts : Parts) : List String := (parts.withRole .name).map (·.text)

/-- The text of the first part that is a name. -/
def name (parts : Parts) : String := parts.names.headD ""

/-- The members that the parts list. -/
def members (parts : Parts) : List FieldDecl := parts.flatMap (·.meaning.members)

end Parts

end GoAtlas.Source
