import GoAtlas.Source.Rule

/-!
# The grammar of Go

The productions follow the rules of Go with some differences.  Statements are allowed
wherever declarations are, declarations come in any order, and a file may lack a
package clause.  A binary operator takes operands of any kind, since the priorities
keep the operators apart.
-/

namespace GoAtlas.Source.Grammar

open Forms

/-! ## Common steps -/

/-- What ends a declaration, statement, field or element. -/
def terminator : Forms := tokens [.lineEnd, .semicolon, .nul]

/-- An identifier. -/
def identifier : Forms := token .identifier

/-- A type. -/
def type : Forms := phrases [.simpleType, .parenType]

/-- A string. -/
def string : Forms := tokens [.rawString, .quotedString]

/-- An expression. -/
def expr : Forms := phrase .expr

/-- Expressions with commas between them. -/
def exprList : Forms := phrase .exprList

/-- Something in parentheses. -/
def parens (inner : Forms) : Forms := seq [token .openParen, inner, token .closeParen]

/-- Something in brackets. -/
def brackets (inner : Forms) : Forms := seq [token .openBracket, inner, token .closeBracket]

/-- Something in braces. -/
def braces (inner : Forms) : Forms := seq [token .openBrace, inner, token .closeBrace]

/-- One or more items, of which the repetition `more` holds all but the first. -/
def listed (item : Forms) (more : Rule) : Forms := seq [item, opt (phrase more)]

/-- One or more items with commas between them and possibly one at the end. -/
def commaList (item : Forms) (more : Rule) : Forms :=
  seq [item, opt (phrase more), opt (token .comma)]

/-- Any number of items with a terminator between them and possibly one at the end. -/
def lineList (item : Forms) (more : Rule) : Forms :=
  opt (seq [item, opt (phrase more), opt terminator])

/-- The parameters and results of a function. -/
def signature : Forms :=
  seq [role .params (phrase .params), opt (role .result (phrases [.params, .simpleType]))]

/-- `new` or `make`, which take a type as their first argument. -/
def typedFunction : Forms := tokens [.newWord, .makeWord]

/-! ## Productions -/

/-- The productions of a rule. -/
def produce (rule : Rule) (forms : Forms) : List Production :=
  forms.map fun steps => { rule, steps }

/-- The productions of a rule with a priority and a side. -/
def produceAt (priority : Int) (side : Option Side) (rule : Rule) (forms : Forms) :
    List Production :=
  forms.map fun steps => { rule, steps, priority, side }

/-- The productions of a rule with a preference. -/
def producePreferred (preference : Int) (rule : Rule) (forms : Forms) : List Production :=
  forms.map fun steps => { rule, steps, preference }

/-- The productions of a repetition. -/
def repeated (rule : Rule) (item : Forms) : List Production :=
  produce rule (either [seq [phrase rule, phrase rule], item])

/-- Package clauses, imports, functions and methods. -/
def topLevel : List Rule := [.packageClause, .funcDecl, .methodDecl, .importDecl]

/-- Files, package clauses and imports. -/
def files : List Production :=
  produce .sourceFile
      (either [seq [phrase .fileItems, phrases topLevel],
        phrases (.fileItems :: topLevel)]) ++
    produce .packageClause (seq [token .packageWord, label]) ++
    produce .importDecl (seq [token .importWord, phrases [.importSpec, .importGroup]]) ++
    produce .importSpec
      (seq [opt (role .name (either
          [oneOf [.rule .importDot, .token .underscore], label])),
        role .path string]) ++
    produce .importDot (token .dot) ++
    produce .importGroup (parens (lineList (phrase .importSpec) .importTail))

/-- Declarations of constants and variables. -/
def values : List Production :=
  produce .declaration (phrases [.constDecl, .typeDecl, .varDecl]) ++
    produce .constDecl
      (seq [token .constWord,
        either [phrase .constSpec, parens (opt (phrase .constItems))]]) ++
    produceAt 0 (some .left) .constSpec
      (seq [role .name (listed identifier .constNameTail),
        opt (seq [opt (role .type type), token .assign, role .value exprList])]) ++
    produce .varDecl (seq [token .varWord, phrases [.varSpec, .varGroup]]) ++
    produce .varSpec
      (seq [role .name identifier, opt (phrase .nameTail),
        either [seq [type, opt (seq [token .assign, exprList])],
          seq [token .assign, exprList]]]) ++
    produce .varGroup (parens (opt (phrase .varItems)))

/-- Declarations of functions and methods, with their parameters. -/
def functions : List Production :=
  produceAt 1 (some .right) .funcDecl
      (seq [token .funcWord, role .name identifier,
        opt (role .typeParams (phrase .typeParams)), signature, opt (phrase .block)]) ++
    produceAt 1 (some .right) .methodDecl
      (seq [token .funcWord, phrase .params, role .name label, signature,
        opt (phrase .block)]) ++
    produce .typeParams (brackets (commaList (phrase .typeParam) .typeParamTail)) ++
    produce .typeParam
      (seq [role .name identifier, opt (phrase .nameTail), phrase .typeElem]) ++
    produce .params
      (parens (opt (either [commaList (phrases [.param, .variadicParam]) .paramTail,
        token .comma]))) ++
    produce .param
      (seq [opt (seq [role .name identifier, opt (phrase .nameTail)]), role .type type]) ++
    produce .variadicParam
      (seq [opt (role .name identifier), token .ellipsis, role .type type])

/-- Declarations of types. -/
def typeDecls : List Production :=
  produce .typeAlias (seq [role .name label, token .assign, role .type type]) ++
    produce .typeDecl
      (seq [token .typeWord,
        either [phrases [.typeSpec, .typeAlias], parens (opt (phrase .typeItems))]]) ++
    producePreferred 1 .typeSpec
      (seq [role .name label, opt (role .typeParams (phrase .typeParams)),
        role .type type])

/-- Types. -/
def types : List Production :=
  produce .exprList (listed expr .exprTail) ++
    produce .parenType (parens type) ++
    producePreferred (-1) .simpleType label ++
    produce .simpleType
      (phrases [.genericType, .qualifiedType, .pointerType, .structType, .interfaceType,
        .arrayType, .sliceType, .mapType, .chanType, .funcType, .negatedType]) ++
    producePreferred 1 .genericType
      (seq [role .type (either [label, phrases [.qualifiedType, .negatedType]]),
        phrase .typeArgs]) ++
    producePreferred 2 .typeArgs (brackets (commaList (phrase .typeElem) .typeArgTail)) ++
    produceAt 6 none .pointerType (seq [token .star, type]) ++
    produceAt 0 (some .right) .arrayType (seq [brackets expr, role .element type]) ++
    produce .countedArrayType
      (seq [brackets (token .ellipsis), role .element type]) ++
    produceAt 0 (some .right) .sliceType
      (seq [token .openBracket, token .closeBracket, role .element type]) ++
    produce .structType (seq [token .structWord, phrase .fieldList]) ++
    produceAt 0 (some .left) .negatedType (seq [token .tilde, type])

/-- Fields of structs, elements of interfaces, and the remaining types. -/
def members : List Production :=
  produce .fieldList (braces (lineList (phrase .fieldDecl) .fieldTail)) ++
    produce .fieldDecl
      (seq [either
          [seq [role .name label, opt (phrase .fieldNameTail), role .type type],
            seq [opt (token .star),
              role .type (either [label, phrases [.qualifiedType, .genericType]])]],
        opt (role .tag string)]) ++
    produce .interfaceType
      (seq [token .interfaceWord,
        braces (lineList (phrases [.methodElem, .typeElem]) .interfaceTail)]) ++
    produce .methodElem (seq [role .name label, signature]) ++
    produce .typeElem (listed type .unionTail) ++
    produceAt 0 (some .right) .mapType
      (seq [token .mapWord, brackets (role .key type), role .value type]) ++
    produceAt 0 (some .left) .chanType
      (seq [token .chanWord, opt (token .arrow), role .value type]) ++
    produceAt 6 (some .left) .chanType
      (seq [token .arrow, token .chanWord, role .value type]) ++
    produceAt 0 (some .right) .funcType (seq [token .funcWord, signature])

/-- The operators that assign. -/
def assignOperators : List Token :=
  [.assign, .starAssign, .slashAssign, .percentAssign, .shiftLeftAssign, .shiftRightAssign,
    .ampAssign, .ampCaretAssign, .plusAssign, .minusAssign, .barAssign, .caretAssign]

/-- Simple statements and sequences of statements. -/
def simpleStatements : List Production :=
  produce .block (braces (opt (phrase .statements))) ++
    produce .statements
      (either [seq [phrase .statement, opt (phrase .statementTail),
          opt (seq [terminator, opt (phrase .emptyLabeledStatement)])],
        phrase .emptyLabeledStatement]) ++
    produce .statement
      (phrases [.declaration, .simpleStatement, .returnStatement, .goStatement,
        .deferStatement, .ifStatement, .forStatement, .exprSwitch, .typeSwitch,
        .selectStatement, .labeledStatement, .fallthroughStatement, .breakStatement,
        .continueStatement, .gotoStatement, .block, .emptyStatement]) ++
    produce .emptyStatement (token .semicolon) ++
    produce .simpleStatement
      (phrases [.exprStatement, .sendStatement, .incStatement, .decStatement,
        .assignStatement, .shortVarDecl]) ++
    produce .exprStatement expr ++
    produce .sendStatement (seq [expr, token .arrow, expr]) ++
    produce .receiveStatement
      (seq [opt (seq [exprList, tokens [.assign, .define]]), expr]) ++
    produce .incStatement (seq [expr, token .increment]) ++
    produce .decStatement (seq [expr, token .decrement]) ++
    produce .assignStatement (seq [exprList, tokens assignOperators, exprList]) ++
    produce .shortVarDecl (seq [exprList, token .define, exprList])

/-- Statements that jump. -/
def jumps : List Production :=
  produce .labeledStatement (seq [label, token .colon, phrase .statement]) ++
    produce .emptyLabeledStatement (seq [label, token .colon]) ++
    produceAt 0 (some .left) .fallthroughStatement (token .fallthroughWord) ++
    produceAt 0 (some .left) .breakStatement (seq [token .breakWord, opt label]) ++
    produceAt 0 (some .left) .continueStatement (seq [token .continueWord, opt label]) ++
    produceAt 0 (some .left) .gotoStatement (seq [token .gotoWord, label]) ++
    produceAt 0 (some .left) .returnStatement (seq [token .returnWord, opt exprList]) ++
    produceAt 0 (some .left) .goStatement (seq [token .goWord, expr]) ++
    produceAt 0 (some .left) .deferStatement (seq [token .deferWord, expr])

/-- A simple statement before the condition of another statement. -/
def initializer : Forms := opt (seq [phrase .simpleStatement, token .semicolon])

/-- What a case does. -/
def caseBody : Forms := seq [token .colon, opt (phrase .statements)]

/-- Statements that choose or repeat. -/
def compoundStatements : List Production :=
  produce .ifStatement
      (seq [token .ifWord, initializer, expr, phrase .block,
        opt (seq [token .elseWord, phrases [.block, .ifStatement]])]) ++
    produce .forStatement
      (seq [token .forWord, opt (phrases [.expr, .forClause, .rangeClause]),
        phrase .block]) ++
    produce .forClause
      (seq [opt (phrase .simpleStatement), token .semicolon, opt expr, token .semicolon,
        opt (phrase .simpleStatement)]) ++
    produce .rangeClause
      (seq [opt (seq [exprList, tokens [.assign, .define]]), token .rangeWord, expr]) ++
    produce .exprSwitch
      (seq [token .switchWord, initializer, opt expr, braces (opt (phrase .exprCases))]) ++
    produce .exprCase (seq [token .caseWord, exprList, caseBody]) ++
    produce .defaultCase (seq [token .defaultWord, caseBody]) ++
    produce .typeSwitch
      (seq [token .switchWord, phrase .typeSwitchHeader, braces (opt (phrase .typeCases))]) ++
    produce .typeSwitchHeader
      (seq [initializer, opt (seq [exprList, token .define]), expr, token .dot,
        parens (token .typeWord)]) ++
    produce .typeCase (seq [token .caseWord, listed type .typeTail, caseBody]) ++
    produce .selectStatement (seq [token .selectWord, braces (opt (phrase .commCases))]) ++
    produce .commCase
      (seq [token .caseWord, phrases [.sendStatement, .receiveStatement], caseBody])

/-- Expressions that are no operators. -/
def operands : List Production :=
  produce .expr
      (oneOf ([Rule.unary, .binary, .selector, .indexExpr, .sliceExpr, .call, .typeAssertion,
          .conversion, .instantiation, .compositeLiteral, .funcLiteral, .parenExpr].map .rule ++
        [Token.identifier, .rawString, .quotedString, .integer, .float, .imaginary, .rune,
          .nilWord, .trueWord, .falseWord, .iotaWord].map .token)) ++
    produce .expr typedFunction ++
    produce .parenExpr (parens expr) ++
    produceAt 7 none .call
      (either [seq [role .function typedFunction, role .args (phrase .typedArgs)],
        seq [role .function expr, opt (phrase .typeArgs), role .args (phrase .args)]]) ++
    produceAt 0 (some .right) .variadicArg (seq [expr, token .ellipsis]) ++
    produce .typedArgs (parens (opt (commaList type .exprTail))) ++
    produce .args (parens (opt (commaList (phrases [.expr, .variadicArg]) .argTail))) ++
    produceAt 7 none .selector
      (seq [role .operand expr, token .dot, role .field label]) ++
    produceAt 7 none .indexExpr (seq [expr, brackets expr]) ++
    produceAt 7 none .sliceExpr
      (seq [expr, brackets (either
        [seq [opt expr, token .colon, opt expr],
          seq [opt expr, token .colon, expr, token .colon, expr]])]) ++
    produceAt 7 none .typeAssertion (seq [expr, token .dot, parens type]) ++
    producePreferred (-1) .conversion
      (seq [role .type type, parens (seq [role .operand expr, opt (token .comma)])]) ++
    producePreferred (-1) .instantiation (seq [type, brackets (commaList type .typeTail)])

/-- Literals and operators. -/
def operators : List Production :=
  produceAt (-1) none .compositeLiteral
      (seq [either [phrases [.mapType, .sliceType, .arrayType, .countedArrayType, .structType,
          .genericType, .qualifiedType], label], phrase .literalBody]) ++
    produce .literalBody
      (braces (opt (either [commaList (phrases [.element, .keyedElement]) .elementTail,
        token .comma]))) ++
    produce .element (phrases [.expr, .literalBody]) ++
    produce .keyedElement (seq [phrase .element, token .colon, phrase .element]) ++
    produce .funcLiteral (seq [token .funcWord, signature, phrase .block]) ++
    produceAt 6 none .unary
      (seq [role .operator (tokens [.plus, .minus, .bang, .caret, .star, .amp, .arrow]),
        role .operand expr]) ++
    produceAt 5 (some .left) .binary
      (seq [expr, tokens [.star, .slash, .percent, .shiftLeft, .shiftRight, .amp, .ampCaret],
        expr]) ++
    produceAt 4 (some .left) .binary
      (seq [expr, tokens [.plus, .minus, .bar, .caret], expr]) ++
    produceAt 3 (some .left) .binary
      (seq [expr, tokens [.equal, .notEqual, .less, .lessEqual, .greater, .greaterEqual],
        expr]) ++
    produceAt 2 (some .left) .binary (seq [expr, token .andAnd, expr]) ++
    produceAt 1 (some .left) .binary (seq [expr, token .orOr, expr]) ++
    produce .qualifiedType (seq [role .package label, token .dot, role .name label])

/-- Repetitions. -/
def repetitions : List Production :=
  repeated .fileItems (seq [phrases (.statement :: topLevel), terminator]) ++
    repeated .importTail (seq [terminator, phrase .importSpec]) ++
    repeated .constItems (seq [phrase .constSpec, terminator]) ++
    repeated .constNameTail (seq [token .comma, identifier]) ++
    repeated .nameTail (seq [token .comma, role .name identifier]) ++
    repeated .varItems (seq [phrase .varSpec, terminator]) ++
    repeated .typeParamTail (seq [token .comma, phrase .typeParam]) ++
    repeated .paramTail (seq [token .comma, phrases [.param, .variadicParam]]) ++
    repeated .typeItems (seq [phrases [.typeSpec, .typeAlias], terminator]) ++
    repeated .exprTail (seq [token .comma, expr]) ++
    repeated .typeArgTail (seq [token .comma, phrase .typeElem]) ++
    repeated .fieldTail (seq [terminator, phrase .fieldDecl]) ++
    repeated .fieldNameTail (seq [token .comma, role .name label]) ++
    repeated .interfaceTail (seq [terminator, phrases [.methodElem, .typeElem]]) ++
    repeated .unionTail (seq [token .bar, type]) ++
    repeated .statementTail (seq [terminator, phrase .statement]) ++
    repeated .exprCases (phrases [.exprCase, .defaultCase]) ++
    repeated .typeCases (phrases [.typeCase, .defaultCase]) ++
    repeated .typeTail (seq [token .comma, type]) ++
    repeated .commCases (phrases [.commCase, .defaultCase]) ++
    repeated .argTail (seq [token .comma, phrases [.expr, .variadicArg]]) ++
    repeated .elementTail (seq [token .comma, phrases [.element, .keyedElement]])

/-- All productions, in the order of their rules. -/
def productions : List Production :=
  files ++ values ++ functions ++ typeDecls ++ types ++ members ++ simpleStatements ++
    jumps ++ compoundStatements ++ operands ++ operators ++ repetitions ++
    produce .text (phrase .sourceFile)

end GoAtlas.Source.Grammar
