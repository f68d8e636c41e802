import GoAtlas.Source.Parse
import GoAtlas.Source.Types
import GoAtlas.Source.Values

/-!
# Reading a Go file

Package clauses, imports, types, constants and functions without receiver are kept of
a file; everything else is dropped, and so are function bodies.  A text that has no
reading declares nothing, so reading a file never fails.
-/

namespace GoAtlas.Source

namespace Parts

/-- The imports that a phrase lists. -/
def toImports (rule : Rule) (parts : Parts) : List ImportDecl :=
  match rule with
  | .importSpec =>
      match parts.role? .path with
      | some path => [{ path := path.text, localName := (parts.role? .name).map (·.text) }]
      | none => []
  | .importDecl | .importGroup => parts.flatMap (·.meaning.imports)
  | _ => []

/-- The declared type.  Types with parameters are not modelled. -/
def typeDecl (parts : Parts) : TypeDecl :=
  { name := parts.name
    expr :=
      if (parts.role? .typeParams).isSome then .unsupported "type_parameter_list"
      else parts.typeOf .type }

/-- The constants of a declaration, one for each name. -/
def constDecls (parts : Parts) : List ConstDecl :=
  let type := (parts.role? .type).map (·.meaning.type)
  let values := parts.valuesOf .value
  ((parts.withRole .name).filter (·.isToken .identifier)).map fun part =>
    { name := part.text, type, values }

/-- The declarations that a phrase lists. -/
def toDecls (rule : Rule) (parts : Parts) : List Decl :=
  match rule with
  | .typeSpec | .typeAlias => [.type parts.typeDecl]
  | .constSpec => parts.constDecls.map .const
  | .funcDecl =>
      let (params, results) := parts.signature
      [.func { name := parts.name, params, results }]
  | .typeDecl | .constDecl => parts.flatMap (·.meaning.decls)
  | _ => []

end Parts

/-- What a token means. -/
def tokenMeaning (label : Label) (token : Token) (text : String) : Meaning :=
  { type := .ident text, value := tokenValue label token text }

/-- What a phrase means, given its parts. -/
def phraseMeaning (rule : Rule) (broken : Bool) (parts : Parts) : Meaning :=
  { type := parts.toType rule broken
    value := parts.toValue rule
    members := parts.toMembers rule
    imports := parts.toImports rule
    decls := parts.toDecls rule }

/-- The text by which a phrase is known: that of its first part in its own right, or
else of its first mark. -/
def phraseText (parts : Parts) : String :=
  match parts.proper ++ parts with
  | part :: _ => part.text
  | [] => ""

namespace Tree

mutual

/-- The parts that a tree stands for in the phrase around it: itself, or its own parts
if it is only a means of the grammar.  Comments are no parts. -/
def toParts : Tree → Parts
  | leaf label lexeme =>
      if label.extra then []
      else
        let text := String.ofList lexeme.text
        [{ symbol := .token lexeme.token, label, text, broken := false
           meaning := tokenMeaning label lexeme.token text }]
  | node label rule trees extent =>
      let parts := partsOf trees
      if rule.isHidden then parts.map (·.inRole label.role)
      else
        [{ symbol := .rule rule, label, text := phraseText parts, broken := extent.broken
           meaning := phraseMeaning rule extent.broken parts }]

/-- The parts of some trees. -/
def partsOf : List Tree → Parts
  | [] => []
  | tree :: trees => toParts tree ++ partsOf trees

end

end Tree

/-- Adds what a part of a file declares. -/
def addPart (file : GoFile) (part : Part) : GoFile :=
  match part.symbol with
  | .rule .packageClause => { file with package := part.text }
  | .rule .importDecl => { file with imports := file.imports ++ part.meaning.imports }
  | .rule .typeDecl | .rule .constDecl | .rule .funcDecl =>
      { file with decls := file.decls ++ part.meaning.decls }
  | _ => file

end GoAtlas.Source

/-- Reads the text of a Go file. -/
def GoAtlas.GoFile.read (text : String) : GoAtlas.GoFile :=
  match GoAtlas.Source.Tree.ofText? text.toList with
  | some tree => (GoAtlas.Source.Tree.partsOf tree.parts).foldl GoAtlas.Source.addPart {}
  | none => {}
