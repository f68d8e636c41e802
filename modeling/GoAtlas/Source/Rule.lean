import GoAtlas.Source.Token

/-!
# Rules of the grammar

The grammar of Go is a list of productions.  A production says that a phrase of one
rule consists of certain steps, one after the other, and each step is filled by a
token or by a phrase.

A text can have several readings under the grammar.  Three things choose between
them:

* the *priority* and the *side* of a production decide, before the reading goes on,
  whether a phrase ends or takes in the next token;
* the *preference* of a production counts for or against a reading as a whole;
* of readings that are equally preferred, the one read first stays, or the one whose
  rules come first in the list below.
-/

namespace GoAtlas.Source

/-- A kind of phrase. -/
inductive Rule where
  | sourceFile
  | packageClause
  | importDecl
  | importSpec
  | importDot
  | importGroup
  | declaration
  | constDecl
  | constSpec
  | varDecl
  | varSpec
  | varGroup
  | funcDecl
  | methodDecl
  | typeParams
  | typeParam
  | params
  | param
  | variadicParam
  | typeAlias
  | typeDecl
  | typeSpec
  | exprList
  | parenType
  | simpleType
  | genericType
  | typeArgs
  | pointerType
  | arrayType
  /-- An array type that counts its own elements. -/
  | countedArrayType
  | sliceType
  | structType
  | negatedType
  | fieldList
  | fieldDecl
  | interfaceType
  | methodElem
  | typeElem
  | mapType
  | chanType
  | funcType
  | block
  | statements
  | statement
  | emptyStatement
  | simpleStatement
  | exprStatement
  | sendStatement
  | receiveStatement
  | incStatement
  | decStatement
  | assignStatement
  | shortVarDecl
  | labeledStatement
  | emptyLabeledStatement
  | fallthroughStatement
  | breakStatement
  | continueStatement
  | gotoStatement
  | returnStatement
  | goStatement
  | deferStatement
  | ifStatement
  | forStatement
  | forClause
  | rangeClause
  | exprSwitch
  | exprCase
  | defaultCase
  | typeSwitch
  | typeSwitchHeader
  | typeCase
  | selectStatement
  | commCase
  | expr
  | parenExpr
  | call
  | variadicArg
  /-- Arguments of which the first one is a type. -/
  | typedArgs
  | args
  | selector
  | indexExpr
  | sliceExpr
  | typeAssertion
  | conversion
  | instantiation
  | compositeLiteral
  | literalBody
  | element
  | keyedElement
  | funcLiteral
  | unary
  | binary
  | qualifiedType
  -- Repetitions.
  | fileItems
  | importTail
  | constItems
  | constNameTail
  | nameTail
  | varItems
  | typeParamTail
  | paramTail
  | typeItems
  | exprTail
  | typeArgTail
  | fieldTail
  | fieldNameTail
  | interfaceTail
  | unionTail
  | statementTail
  | exprCases
  | typeCases
  | typeTail
  | commCases
  | argTail
  | elementTail
  /-- The whole text. -/
  | text
deriving DecidableEq, Repr

namespace Rule

/-- The number of a rule. -/
def index (rule : Rule) : Nat := rule.ctorIdx

/-- The number of rules. -/
def count : Nat := Rule.text.index + 1

/-- Whether a rule only repeats.  Two phrases of such a rule next to each other are one
phrase of it. -/
def isRepetition (rule : Rule) : Bool :=
  fileItems.index ≤ rule.index && rule.index < text.index

/-- Whether a phrase of this rule is no part of its own: its parts belong to the phrase
around it. -/
def isHidden (rule : Rule) : Bool :=
  rule.isRepetition ||
    match rule with
    | declaration | simpleType | statements | statement | simpleStatement
    | typeSwitchHeader | expr => true
    | _ => false

end Rule

/-- A token or a phrase. -/
inductive Symbol where
  | token (token : Token)
  | rule (rule : Rule)
deriving DecidableEq, Repr

/-- The number of a symbol; tokens come before rules. -/
def Symbol.index : Symbol → Nat
  | .token t => t.index
  | .rule r => Token.stray.index + 1 + r.index

/-- What a part is for in the phrase around it. -/
inductive Role where
  | name
  | path
  | type
  | value
  | typeParams
  | params
  | result
  | element
  | key
  | package
  | tag
  | operand
  | field
  | function
  | args
  | operator
deriving DecidableEq, Repr

/-- One step of a production. -/
structure Step where
  /-- What can stand here. -/
  symbols : List Symbol
  role : Option Role := none
  /-- Whether an identifier here names a type, field, package or label and not a
  value. -/
  names : Bool := false
deriving Repr

instance : Inhabited Step := ⟨{ symbols := [] }⟩

/-- The side to which operators of one priority group. -/
inductive Side where
  | left
  | right
deriving DecidableEq, Repr

/-- A form of the phrases of a rule. -/
structure Production where
  rule : Rule
  steps : List Step
  priority : Int := 0
  side : Option Side := none
  preference : Int := 0
deriving Repr

instance : Inhabited Production := ⟨{ rule := .text, steps := [] }⟩

/-! ## Writing productions -/

/-- Some sequences of steps, of which a phrase may have any. -/
abbrev Forms := List (List Step)

namespace Forms

/-- A step that takes one of some symbols. -/
def oneOf (symbols : List Symbol) : Forms := [[{ symbols }]]

/-- A step that takes one of some tokens. -/
def tokens (tokens : List Token) : Forms := oneOf (tokens.map .token)

/-- A step that takes a token. -/
def token (token : Token) : Forms := tokens [token]

/-- A step that takes a phrase of one of some rules. -/
def phrases (rules : List Rule) : Forms := oneOf (rules.map .rule)

/-- A step that takes a phrase. -/
def phrase (rule : Rule) : Forms := phrases [rule]

/-- An identifier that names no value. -/
def label : Forms := [[{ symbols := [.token .identifier], names := true }]]

/-- One after the other. -/
def seq : List Forms → Forms
  | [] => [[]]
  | forms :: rest => forms.flatMap fun steps => (seq rest).map (steps ++ ·)

/-- Any of some forms. -/
def either (forms : List Forms) : Forms := forms.flatten

/-- Some forms, or nothing. -/
def opt (forms : Forms) : Forms := forms ++ [[]]

/-- Some forms whose parts have a role. -/
def role (role : Role) (forms : Forms) : Forms :=
  forms.map fun steps => steps.map fun step => { step with role := some role }

end Forms

end GoAtlas.Source
