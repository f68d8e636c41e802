/-!
# Tokens of Go source

A token is a piece of Go source that is not divided further: a word, a mark, a name, a
literal or a comment.  Which token a piece of text is depends on where it stands.  A
word such as `type` is a keyword only where the grammar has a use for the keyword and
a name everywhere else, and a line break counts only where something may end.

Sets of tokens are kept as the bits of a number, so that joining two of them is one
operation.
-/

namespace GoAtlas.Source

/-- A kind of token. -/
inductive Token where
  | endOfText
  | identifier
  | lineEnd
  | semicolon
  /-- The character with the number 0, which separates like a semicolon. -/
  | nul
  | packageWord
  | importWord
  | constWord
  | varWord
  | funcWord
  | typeWord
  | structWord
  | interfaceWord
  | mapWord
  | chanWord
  | fallthroughWord
  | breakWord
  | continueWord
  | gotoWord
  | returnWord
  | goWord
  | deferWord
  | ifWord
  | elseWord
  | forWord
  | rangeWord
  | switchWord
  | caseWord
  | defaultWord
  | selectWord
  | newWord
  | makeWord
  | nilWord
  | trueWord
  | falseWord
  | iotaWord
  | underscore
  | dot
  | comma
  | colon
  | ellipsis
  | openParen
  | closeParen
  | openBracket
  | closeBracket
  | openBrace
  | closeBrace
  | assign
  | define
  | starAssign
  | slashAssign
  | percentAssign
  | shiftLeftAssign
  | shiftRightAssign
  | ampAssign
  | ampCaretAssign
  | plusAssign
  | minusAssign
  | barAssign
  | caretAssign
  | increment
  | decrement
  | arrow
  | star
  | slash
  | percent
  | shiftLeft
  | shiftRight
  | amp
  | ampCaret
  | plus
  | minus
  | bar
  | caret
  | bang
  | tilde
  | equal
  | notEqual
  | less
  | lessEqual
  | greater
  | greaterEqual
  | andAnd
  | orOr
  | rawString
  | quotedString
  | integer
  | float
  | imaginary
  | rune
  | comment
  /-- A character that starts no token. -/
  | stray
deriving DecidableEq, Repr

namespace Token

/-- The number of a token. -/
def index (token : Token) : Nat := token.ctorIdx

/-- The number of tokens. -/
def count : Nat := stray.index + 1

/-- The tokens in the order of their numbers. -/
def all : List Token := (List.range count).map ofNat

/-- The words with a meaning of their own. -/
def words : List (String × Token) :=
  [("package", packageWord), ("import", importWord), ("const", constWord), ("var", varWord),
    ("func", funcWord), ("type", typeWord), ("struct", structWord),
    ("interface", interfaceWord), ("map", mapWord), ("chan", chanWord),
    ("fallthrough", fallthroughWord), ("break", breakWord), ("continue", continueWord),
    ("goto", gotoWord), ("return", returnWord), ("go", goWord), ("defer", deferWord),
    ("if", ifWord), ("else", elseWord), ("for", forWord), ("range", rangeWord),
    ("switch", switchWord), ("case", caseWord), ("default", defaultWord),
    ("select", selectWord), ("new", newWord), ("make", makeWord), ("nil", nilWord),
    ("true", trueWord), ("false", falseWord), ("iota", iotaWord), ("_", underscore)]

/-- The marks, longer ones before their beginnings. -/
def marks : List (String × Token) :=
  [("<<=", shiftLeftAssign), (">>=", shiftRightAssign), ("&^=", ampCaretAssign),
    ("...", ellipsis),
    (":=", define), ("*=", starAssign), ("/=", slashAssign), ("%=", percentAssign),
    ("&=", ampAssign), ("+=", plusAssign), ("-=", minusAssign), ("|=", barAssign),
    ("^=", caretAssign), ("++", increment), ("--", decrement), ("<-", arrow),
    ("<<", shiftLeft), (">>", shiftRight), ("&^", ampCaret), ("==", equal),
    ("!=", notEqual), ("<=", lessEqual), (">=", greaterEqual), ("&&", andAnd),
    ("||", orOr),
    (".", dot), (",", comma), (":", colon), (";", semicolon), ("(", openParen),
    (")", closeParen), ("[", openBracket), ("]", closeBracket), ("\x7b", openBrace),
    ("\x7d", closeBrace), ("=", assign), ("*", star), ("/", slash), ("%", percent),
    ("&", amp), ("+", plus), ("-", minus), ("|", bar), ("^", caret), ("!", bang),
    ("~", tilde), ("<", less), (">", greater), ("\x00", nul)]

/-- Whether a token is one of the words with a meaning of their own. -/
def isWord (token : Token) : Bool :=
  words.any fun entry => entry.2 == token

end Token

/-! ## Sets of tokens -/

/-- A set of tokens: bit `n` tells whether the token with the number `n` belongs to
it. -/
structure TokenSet where
  bits : Nat
deriving DecidableEq, Repr

namespace TokenSet

/-- The set without tokens. -/
def empty : TokenSet := ⟨0⟩

instance : Inhabited TokenSet := ⟨empty⟩

/-- The set of one token. -/
def single (token : Token) : TokenSet := ⟨1 <<< token.index⟩

/-- The tokens of either set. -/
def union (a b : TokenSet) : TokenSet := ⟨a.bits ||| b.bits⟩

/-- The tokens of both sets. -/
def inter (a b : TokenSet) : TokenSet := ⟨a.bits &&& b.bits⟩

/-- Whether a token belongs to a set. -/
def contains (set : TokenSet) (token : Token) : Bool := set.bits.testBit token.index

/-- Whether a set has no tokens. -/
def isEmpty (set : TokenSet) : Bool := set.bits == 0

/-- The set of the tokens of a list. -/
def ofList (tokens : List Token) : TokenSet :=
  tokens.foldl (fun set token => set.union (single token)) empty

@[simp] theorem contains_empty (token : Token) : empty.contains token = false := by
  simp [empty, contains]

@[simp] theorem contains_union (a b : TokenSet) (token : Token) :
    (a.union b).contains token = (a.contains token || b.contains token) := by
  simp [union, contains]

@[simp] theorem contains_inter (a b : TokenSet) (token : Token) :
    (a.inter b).contains token = (a.contains token && b.contains token) := by
  simp [inter, contains]

end TokenSet

end GoAtlas.Source
