/-!
# What can go wrong

Every failure has a cause, named here once, and its wording is a function of the
cause.  Failures of reading a quoted literal have causes of their own because
tag reading reports them without failing.
-/

namespace GoAtlas

/-- Why a quoted literal cannot be read. -/
inductive LiteralFault where
  /-- There is no character at all. -/
  | empty
  /-- The last character is not the opening quote, or is the same occurrence. -/
  | unterminated
  /-- A backquote stands inside a raw string. -/
  | backquote
  /-- A line break stands between the quotes. -/
  | lineBreak
  /-- The quote stands between the quotes without a backslash. -/
  | bareQuote
  /-- A backslash is the last character of the body. -/
  | trailingBackslash
  /-- Too few hexadecimal digits follow an escape. -/
  | hexDigits
  /-- The digits of an escape name no Unicode scalar value. -/
  | codePoint
  /-- Too few octal digits follow an escape. -/
  | octalDigits
  /-- An octal escape denotes more than a byte. -/
  | octalRange
  /-- No escape is written with this character. -/
  | unknownEscape (c : Char)
  /-- A rune literal does not hold exactly one character. -/
  | runeLength
  /-- The first character is no quote. -/
  | notQuoted
  /-- The text is a single character beyond ASCII, which is taken to open and to
  close the literal at once; reading cannot go on from there. -/
  | loneCharacter
deriving DecidableEq, Repr

/-- The wording of a literal fault. -/
def LiteralFault.message : LiteralFault → String
  | .empty => "empty literal"
  | .unterminated => "unterminated literal"
  | .backquote => "backquote inside raw string"
  | .lineBreak => "newline in literal"
  | .bareQuote => "unescaped quote in literal"
  | .trailingBackslash => "trailing backslash"
  | .hexDigits => "invalid hex escape"
  | .codePoint => "invalid unicode escape"
  | .octalDigits => "invalid octal escape"
  | .octalRange => "octal escape out of range"
  | .unknownEscape c => "unknown escape sequence \\" ++ String.singleton c
  | .runeLength => "rune literal must hold exactly one character"
  | .notQuoted => "not a quoted literal"
  | .loneCharacter => "lone character"

/-- Why an operation fails. -/
inductive Fault where
  /-- A type expression has no counterpart in the model. -/
  | unsupportedType (what : String)
  /-- The body of a struct could not be read completely. -/
  | incompleteStruct (name : String)
  /-- An embedded field has a type without an innermost name. -/
  | missingEmbeddedName (what : String)
  /-- A quoted literal cannot be read. -/
  | literal (cause : LiteralFault) (text : String)
  /-- There is nothing under a path. -/
  | notFound (path : String)
  /-- Settings cannot be read or written in their file format. -/
  | settings
  /-- The file system refuses. -/
  | io
  /-- A text is not the JSON form of the expected value. -/
  | json
deriving DecidableEq, Repr

/-- The wording of a fault. -/
def Fault.message : Fault → String
  | .unsupportedType what => "Unsupported type expression: " ++ what
  | .incompleteStruct name => name ++ " is incomplete struct definition"
  | .missingEmbeddedName what => "Cannot derive a name for embedded field of type " ++ what
  | .literal cause text => "Unquote error: " ++ cause.message ++ ": " ++ text
  | .notFound path => "Not found: " ++ path
  | .settings => "Configuration error"
  | .io => "IO error"
  | .json => "JSON error"

end GoAtlas
