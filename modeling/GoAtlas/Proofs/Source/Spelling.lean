import GoAtlas.Source.File
import GoAtlas.Proofs.Source.Derivation

/-!
# Spelling out a Go file

What a file declares is spelled out as the words of a text, one specification for each name.
Elements of channels stand in parentheses, so `chan (<-chan T)` is not taken for
`(chan<-) (chan T)`; results without names that are not alone stand in parentheses as well.

The same declarations can be spelled with their specifications one by one or grouped in
parentheses.  A `Layout` says which it is.
-/

namespace GoAtlas

open Source

/-! ## Lists -/

/-- Some items with commas between them. -/
def commaWords : List (List Word) → List Word
  | [] => []
  | item :: items => item ++ items.flatMap ((.comma, ",") :: ·)

/-- Some items with an end of line after each. -/
def lineWords : List (List Word) → List Word
  | [] => []
  | item :: items => item ++ (.lineEnd, "\n") :: lineWords items

/-- Something in parentheses. -/
def parenWords (words : List Word) : List Word :=
  (.openParen, "(") :: (words ++ [(.closeParen, ")")])

/-- Something in braces. -/
def braceWords (words : List Word) : List Word :=
  (.openBrace, "\x7b") :: (words ++ [(.closeBrace, "\x7d")])

/-- The tokens of literals. -/
def literalTokens : List Token :=
  [.rawString, .quotedString, .integer, .float, .imaginary, .rune]

/-- The token that a literal is. -/
def literalToken (text : String) : Token :=
  ((Lexeme.longest (.ofList literalTokens) text.toList).map (·.1)).getD .stray

/-- A literal without a sign. -/
def literalWord (text : String) : Word := (literalToken text, text)

/-! ## Types -/

namespace TypeExpr

/-- The words of some names. -/
def nameWords (names : List String) : List Word :=
  commaWords (names.map fun name => [(.identifier, name)])

/-- The words of a tag, if there is one. -/
def tagWords (tag : Option String) : List Word := tag.toList.map literalWord

/-- The word or words before the element of a channel. -/
def directionWords : ChanDir → List Word
  | .both => [(.chanWord, "chan")]
  | .send => [(.chanWord, "chan"), (.arrow, "<-")]
  | .recv => [(.arrow, "<-"), (.chanWord, "chan")]

/-- The results of a function, given the words of each. -/
def resultWords (results : List FieldDecl) (words : List (List Word)) : List Word :=
  match results with
  | [] => []
  | [⟨[], _, _⟩] => words.flatten
  | _ => parenWords (commaWords words)

mutual

/-- The words of a type. -/
def words : TypeExpr → List Word
  | .ident name => [(.identifier, name)]
  | .selector package name => [(.identifier, package), (.dot, "."), (.identifier, name)]
  | .array elem => (.openBracket, "[") :: (.closeBracket, "]") :: words elem
  | .map key value =>
      (.mapWord, "map") :: (.openBracket, "[") ::
        (words key ++ (.closeBracket, "]") :: words value)
  | .pointer target => (.star, "*") :: words target
  | .struct fields _ => (.structWord, "struct") :: braceWords (lineWords (memberWords fields))
  | .interface elements =>
      (.interfaceWord, "interface") :: braceWords (lineWords (elementWords elements))
  | .func params results =>
      (.funcWord, "func") :: (parenWords (commaWords (memberWords params)) ++
        resultWords results (memberWords results))
  | .chan dir elem => directionWords dir ++ parenWords (words elem)
  | .ellipsis elem => (.ellipsis, "...") :: words elem
  | .unsupported _ => []

/-- The words of each of some fields, parameters or results. -/
def memberWords : List (Member TypeExpr) → List (List Word)
  | [] => []
  | ⟨names, type, tag⟩ :: members =>
      (nameWords names ++ (words type ++ tagWords tag)) :: memberWords members

/-- The words of each of some elements of an interface.  A method is written without the keyword
of its type. -/
def elementWords : List (Member TypeExpr) → List (List Word)
  | [] => []
  | ⟨[], type, _⟩ :: elements => words type :: elementWords elements
  | ⟨names, type, _⟩ :: elements =>
      (nameWords names ++ (words type).tail) :: elementWords elements

end

/-- Whether a type is a name, with or without its package. -/
def isNamed : TypeExpr → Bool
  | .ident _ | .selector _ _ => true
  | _ => false

/-- Whether a type can be embedded in a struct. -/
def isEmbeddable : TypeExpr → Bool
  | .pointer target => target.isNamed
  | type => type.isNamed

/-- Whether a type is the one of a method. -/
def isFunc : TypeExpr → Bool
  | .func _ _ => true
  | _ => false

/-- Whether a type stands for any number of parameters. -/
def isVariadic : TypeExpr → Bool
  | .ellipsis _ => true
  | _ => false

/-- Whether all members have names, or none has. -/
def isUniform (members : List FieldDecl) : Bool :=
  members.all (·.names.isEmpty) || members.all (!·.names.isEmpty)

mutual

/-- Whether a type is supported: structs are complete, parameters and results all have names or
none has, and only parameters are variadic. -/
def isPlain : TypeExpr → Bool
  | .ident _ | .selector _ _ => true
  | .array elem | .pointer elem | .chan _ elem => isPlain elem
  | .map key value => isPlain key && isPlain value
  | .struct fields incomplete => !incomplete && arePlainFields fields
  | .interface elements => arePlainElements elements
  | .func params results =>
      isUniform params && arePlainParams params && isUniform results && arePlainParams results &&
        results.all (!·.type.isVariadic)
  | .ellipsis _ | .unsupported _ => false

/-- Whether the fields of a struct are supported. -/
def arePlainFields : List (Member TypeExpr) → Bool
  | [] => true
  | ⟨names, type, tag⟩ :: fields =>
      isPlain type && (!names.isEmpty || type.isEmbeddable) &&
        tag.all (fun tag => [Token.rawString, .quotedString].contains (literalToken tag)) &&
        arePlainFields fields

/-- Whether the elements of an interface are supported. -/
def arePlainElements : List (Member TypeExpr) → Bool
  | [] => true
  | ⟨names, type, tag⟩ :: elements =>
      isPlain type && tag.isNone &&
        (names.isEmpty && type.isNamed || names.length == 1 && type.isFunc) &&
        arePlainElements elements

/-- Whether parameters or results are supported. -/
def arePlainParams : List (Member TypeExpr) → Bool
  | [] => true
  | ⟨_, .ellipsis elem, tag⟩ :: params => isPlain elem && tag.isNone && arePlainParams params
  | ⟨_, type, tag⟩ :: params => isPlain type && tag.isNone && arePlainParams params

end

end TypeExpr

/-! ## Values -/

namespace ValueExpr

/-- The token of a name that stands for a value. -/
def nameToken (name : String) : Token :=
  if name = "nil" then .nilWord else if name = "true" then .trueWord
  else if name = "false" then .falseWord else .identifier

/-- The sign of a literal and the rest of it. -/
def signOf? (text : String) : Option (Word × String) :=
  match text.toList with
  | '+' :: rest => some ((.plus, "+"), String.ofList rest)
  | '-' :: rest => some ((.minus, "-"), String.ofList rest)
  | _ => none

/-- The words of a literal. -/
def literalWords (text : String) : List Word :=
  match signOf? text with
  | some (sign, number) => [sign, literalWord number]
  | none => [literalWord text]

mutual

/-- The words of a value. -/
def words : ValueExpr → List Word
  | .literal text => literalWords text
  | .ident name => [(nameToken name, name)]
  | .iota => [(.iotaWord, "iota")]
  | .selector package name => [(nameToken package, package), (.dot, "."), (.identifier, name)]
  | .call callee args => words callee ++ parenWords (commaWords (wordsAll args))
  | .compound _ => []

/-- The words of each of some values. -/
def wordsAll : List ValueExpr → List (List Word)
  | [] => []
  | value :: values => words value :: wordsAll values

end

/-- Whether a value can be called. -/
def isCallee : ValueExpr → Bool
  | .ident _ => true
  | .selector package _ => nameToken package == .identifier
  | _ => false

/-- Whether a literal is supported: only numbers have a sign. -/
def isPlainLiteral (text : String) : Bool :=
  match signOf? text with
  | some (_, number) => [Token.integer, .float, .imaginary].contains (literalToken number)
  | none => literalTokens.contains (literalToken text)

mutual

/-- Whether a value is supported: literals, names, and calls of names.  A package that goes by the
name of a predeclared value is none. -/
def isPlain : ValueExpr → Bool
  | .literal text => isPlainLiteral text
  | .ident _ | .iota => true
  | .selector package _ => nameToken package == .identifier
  | .call callee args => callee.isCallee && arePlain args
  | .compound _ => false

/-- Whether some values are supported. -/
def arePlain : List ValueExpr → Bool
  | [] => true
  | value :: values => isPlain value && arePlain values

end

end ValueExpr

/-! ## Declarations -/

/-- A specification by itself, or some in parentheses. -/
inductive SpecGroup (α : Type) where
  | single (spec : α)
  | block (specs : List α)

namespace SpecGroup

variable {α : Type}

/-- The specifications. -/
def specs : SpecGroup α → List α
  | single spec => [spec]
  | block specs => specs

/-- The words of a group, given those of a specification. -/
def words (spell : α → List Word) : SpecGroup α → List Word
  | single spec => spell spec
  | block specs => parenWords (lineWords (specs.map spell))

end SpecGroup

namespace ImportDecl

/-- The token of the local name of an import. -/
def nameToken (name : String) : Token :=
  if name = "." then .dot else if name = "_" then .underscore else .identifier

/-- The words of an import. -/
def words (decl : ImportDecl) : List Word :=
  (decl.localName.toList.map fun name => (nameToken name, name)) ++ [literalWord decl.path]

/-- Whether the path of an import is a string. -/
def isPlain (decl : ImportDecl) : Bool :=
  [Token.rawString, .quotedString].contains (literalToken decl.path)

end ImportDecl

/-- The words of a declared type. -/
def TypeDecl.words (decl : TypeDecl) : List Word := (.identifier, decl.name) :: decl.expr.words

namespace ConstDecl

/-- Whether a constant repeats the one before it. -/
def isBare (decl : ConstDecl) : Bool := decl.type.isNone && decl.values.isEmpty

/-- The words of a constant after its name. -/
def initWords (decl : ConstDecl) : List Word :=
  if decl.isBare then []
  else (decl.type.map (·.words)).getD [] ++
    (.assign, "=") :: commaWords (ValueExpr.wordsAll decl.values)

/-- The words of a constant. -/
def words (decl : ConstDecl) : List Word := (.identifier, decl.name) :: decl.initWords

/-- Whether a constant is supported. -/
def isPlain (decl : ConstDecl) : Bool :=
  decl.type.all (·.isPlain) && ValueExpr.arePlain decl.values

end ConstDecl

/-- The words of a function with an empty body. -/
def FuncDecl.words (decl : FuncDecl) : List Word :=
  (.funcWord, "func") :: (.identifier, decl.name) ::
    ((TypeExpr.func decl.params decl.results).words.tail ++ braceWords [])

/-- A piece of the text of a file. -/
inductive FileItem where
  | imports (group : SpecGroup ImportDecl)
  | types (group : SpecGroup TypeDecl)
  | consts (group : SpecGroup ConstDecl)
  | func (decl : FuncDecl)

namespace FileItem

/-- The words of an item. -/
def words : FileItem → List Word
  | imports group => (.importWord, "import") :: group.words ImportDecl.words
  | types group => (.typeWord, "type") :: group.words TypeDecl.words
  | consts group => (.constWord, "const") :: group.words ConstDecl.words
  | func decl => decl.words

/-- What an item adds to a file. -/
def addTo (file : GoFile) : FileItem → GoFile
  | imports group => { file with imports := file.imports ++ group.specs }
  | types group => { file with decls := file.decls ++ group.specs.map .type }
  | consts group => { file with decls := file.decls ++ group.specs.map .const }
  | func decl => { file with decls := file.decls ++ [.func decl] }

/-- Whether an item is supported. -/
def isPlain : FileItem → Bool
  | imports group => group.specs.all (·.isPlain)
  | types group => group.specs.all (·.expr.isPlain)
  | consts group => group.specs.all (·.isPlain)
  | func decl => (TypeExpr.func decl.params decl.results).isPlain

end FileItem

/-! ## Files -/

/-- How the text of a file is laid out. -/
structure Layout where
  package : String
  items : List FileItem

namespace Layout

/-- The words of the text: the package clause and the items, with an end of line after each. -/
def words (layout : Layout) : List Word :=
  lineWords ([(.packageWord, "package"), (.identifier, layout.package)] ::
    layout.items.map (·.words))

/-- The text, with blanks between the words. -/
def source (layout : Layout) : String := " ".intercalate (layout.words.map (·.2))

/-- What the text declares. -/
def file (layout : Layout) : GoFile :=
  layout.items.foldl FileItem.addTo { package := layout.package }

/-- Whether all items are supported. -/
def isPlain (layout : Layout) : Bool := layout.items.all (·.isPlain)

end Layout

/-- The item that spells out a declaration by itself. -/
def Decl.item : Decl → FileItem
  | .type decl => .types (.single decl)
  | .const decl => if decl.isBare then .consts (.block [decl]) else .consts (.single decl)
  | .func decl => .func decl

/-- The layout of a file with its declarations one by one. -/
def GoFile.layout (file : GoFile) : Layout :=
  { package := file.package
    items := file.imports.map (.imports <| .single ·) ++ file.decls.map (·.item) }

theorem FileItem.foldl_imports (imports : List ImportDecl) (file : GoFile) :
    (imports.map (FileItem.imports <| .single ·)).foldl FileItem.addTo file =
      { file with imports := file.imports ++ imports } := by
  induction imports generalizing file with
  | nil => simp
  | cons decl imports ih => simp [ih, FileItem.addTo, SpecGroup.specs]

theorem FileItem.foldl_decls (decls : List Decl) (file : GoFile) :
    (decls.map (·.item)).foldl FileItem.addTo file =
      { file with decls := file.decls ++ decls } := by
  induction decls generalizing file with
  | nil => simp
  | cons decl decls ih =>
      have hadd : FileItem.addTo file decl.item = { file with decls := file.decls ++ [decl] } := by
        cases decl with
        | type decl => rfl
        | const decl =>
            cases hbare : decl.isBare <;> simp [Decl.item, hbare, FileItem.addTo, SpecGroup.specs]
        | func decl => rfl
      simp [ih, hadd]

/-- A file is what its layout declares. -/
theorem GoFile.layout_file (file : GoFile) : file.layout.file = file := by
  simp [GoFile.layout, Layout.file, FileItem.foldl_imports, FileItem.foldl_decls]

end GoAtlas
