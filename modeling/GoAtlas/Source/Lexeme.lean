import GoAtlas.Source.Token
import GoAtlas.Text.Blank
import GoAtlas.Text.Decimal

/-!
# Cutting tokens off a text

`Lexeme.next` cuts the next token off a text, given the tokens that can come next.
Of several tokens that fit, the longest one counts.  A comment can come anywhere.

The forms of tokens are given by scans: a scan takes some characters from the beginning
of a text, or fails.
-/

namespace GoAtlas.Source

/-! ## Scans -/

/-- A text of which the beginning has been taken. -/
structure Cut where
  /-- How many characters have been taken. -/
  taken : Nat
  rest : List Char

/-- Takes some characters or fails. -/
abbrev Scan := Cut → Option Cut

namespace Scan

/-- One character that satisfies `p`. -/
def one (p : Char → Bool) : Scan
  | ⟨_, []⟩ => none
  | ⟨taken, c :: rest⟩ => if p c then some ⟨taken + 1, rest⟩ else none

/-- The character `c`. -/
def char (c : Char) : Scan := one (· == c)

/-- One of the characters of `chars`. -/
def among (chars : String) : Scan := one fun c => chars.toList.contains c

/-- What some scans take one after the other. -/
def seq : List Scan → Scan
  | [], cut => some cut
  | scan :: scans, cut => (scan cut).bind (seq scans)

/-- What a scan takes, or nothing. -/
def opt (scan : Scan) : Scan := fun cut => some ((scan cut).getD cut)

/-- The cut that has taken more, the first of them if none has. -/
def further (a b : Option Cut) : Option Cut :=
  match a, b with
  | some x, some y => if x.taken < y.taken then some y else some x
  | some x, none => some x
  | none, y => y

/-- What the scan takes that takes most. -/
def longest (scans : List Scan) : Scan := fun cut =>
  scans.foldl (fun best scan => further best (scan cut)) none

/-- A given text. -/
def exactly : List Char → Scan
  | [], cut => some cut
  | _ :: _, ⟨_, []⟩ => none
  | c :: expected, ⟨taken, d :: rest⟩ =>
      if c = d then exactly expected ⟨taken + 1, rest⟩ else none

/-- All characters up to one that satisfies `p`. -/
def upTo (p : Char → Bool) (taken : Nat) : List Char → Cut
  | [] => ⟨taken, []⟩
  | c :: rest => if p c then ⟨taken, c :: rest⟩ else upTo p (taken + 1) rest

end Scan

/-! ## Numbers -/

/-- The digits in base two. -/
def isBinaryDigit (c : Char) : Bool := c == '0' || c == '1'

/-- The digits in base eight. -/
def isOctalDigit (c : Char) : Bool := '0' ≤ c && c ≤ '7'

/-- The digits in base sixteen. -/
def isHexDigit (c : Char) : Bool :=
  isDigit c || ('a' ≤ c && c ≤ 'f') || ('A' ≤ c && c ≤ 'F')

namespace Scan

/-- Any number of digits, each possibly after an underscore. -/
def moreDigits (isDigit : Char → Bool) (taken : Nat) : List Char → Cut
  | [] => ⟨taken, []⟩
  | [c] => if isDigit c then ⟨taken + 1, []⟩ else ⟨taken, [c]⟩
  | c :: d :: rest =>
      if isDigit c then moreDigits isDigit (taken + 1) (d :: rest)
      else if c == '_' && isDigit d then moreDigits isDigit (taken + 2) rest
      else ⟨taken, c :: d :: rest⟩

/-- One or more digits with single underscores between them. -/
def digits (isDigit : Char → Bool) : Scan := fun cut =>
  (one isDigit cut).map fun cut => moreDigits isDigit cut.taken cut.rest

/-- An underscore that may be missing. -/
def gap : Scan := opt (char '_')

/-- Decimal digits. -/
def decimals : Scan := digits isDigit

/-- Hexadecimal digits. -/
def hexadecimals : Scan := digits isHexDigit

/-- The forms of an integer. -/
def integerForms : List Scan :=
  [seq [char '0', among "bB", gap, digits isBinaryDigit],
    char '0',
    seq [one fun c => isDigit c && c != '0', opt (seq [gap, decimals])],
    seq [char '0', opt (among "oO"), gap, digits isOctalDigit],
    seq [char '0', among "xX", gap, hexadecimals]]

/-- An exponent after one of the characters of `marks`. -/
def exponent (marks : String) : Scan := seq [among marks, opt (among "+-"), decimals]

/-- The forms of a floating-point number. -/
def floatForms : List Scan :=
  let hex (digits : List Scan) : Scan :=
    seq [char '0', among "xX", seq digits, exponent "pP"]
  [seq [decimals, char '.', opt decimals, opt (exponent "eE")],
    seq [decimals, exponent "eE"],
    seq [char '.', decimals, opt (exponent "eE")],
    hex [gap, hexadecimals, char '.', opt hexadecimals],
    hex [gap, hexadecimals],
    hex [char '.', hexadecimals]]

/-- An integer. -/
def integer : Scan := longest integerForms

/-- A floating-point number. -/
def float : Scan := longest floatForms

/-- An imaginary number. -/
def imaginary : Scan :=
  longest ((decimals :: integerForms ++ floatForms).map fun form => seq [form, char 'i'])

/-! ## Characters, strings and comments -/

/-- What may stand after a backslash between single quotes. -/
def runeEscape : Scan :=
  let hex := one isHexDigit
  longest
    [seq (char 'x' :: List.replicate 2 hex),
      seq (List.replicate 3 (one isOctalDigit)),
      seq (char 'u' :: List.replicate 4 hex),
      seq (char 'U' :: List.replicate 8 hex),
      among "abfnrtv\\'\""]

/-- A character between single quotes. -/
def rune : Scan :=
  seq [char '\'',
    longest [one fun c => c != '\'' && c != '\\', seq [char '\\', runeEscape]],
    char '\'']

/-- What a raw string has after its first backquote. -/
def rawBody (taken : Nat) : List Char → Option Cut
  | [] => none
  | c :: rest => if c = '`' then some ⟨taken + 1, rest⟩ else rawBody (taken + 1) rest

/-- A raw string. -/
def rawString : Scan := seq [char '`', fun cut => rawBody cut.taken cut.rest]

/-- How many hexadecimal digits must follow after a backslash and the character `c`. -/
def escapeDigits (c : Char) : Nat :=
  if c = 'x' then 2 else if c = 'u' then 4 else if c = 'U' then 8 else 0

/-- What a quoted string has after its first quote, where `owed` hexadecimal digits must
come next. -/
def quotedBody (taken : Nat) : (owed : Nat) → List Char → Option Cut
  | _, [] => none
  | owed + 1, c :: rest =>
      if isHexDigit c then quotedBody (taken + 1) owed rest else none
  | 0, [c] => if c = '"' then some ⟨taken + 1, []⟩ else none
  | 0, c :: d :: rest =>
      if c = '"' then some ⟨taken + 1, d :: rest⟩
      else if c = '\n' then none
      else if c = '\\' then quotedBody (taken + 2) (escapeDigits d) rest
      else quotedBody (taken + 1) 0 (d :: rest)

/-- A quoted string. -/
def quotedString : Scan := seq [char '"', fun cut => quotedBody cut.taken 0 cut.rest]

/-- What a comment has after its opening slash and star. -/
def commentBody (taken : Nat) : List Char → Option Cut
  | '*' :: '/' :: rest => some ⟨taken + 2, rest⟩
  | _ :: rest => commentBody (taken + 1) rest
  | [] => none

/-- A comment: up to the end of the line, or up to the mark that closes it. -/
def comment : Scan :=
  longest
    [seq [exactly ['/', '/'], fun cut => some (upTo (· == '\n') cut.taken cut.rest)],
      seq [exactly ['/', '*'], fun cut => commentBody cut.taken cut.rest]]

end Scan

/-! ## Words -/

/-- Whether a character can start a name.  Beyond ASCII every character that is not blank
is taken for a letter. -/
def isLetter (c : Char) : Bool :=
  ('a' ≤ c && c ≤ 'z') || ('A' ≤ c && c ≤ 'Z') || c == '_' ||
    (0x80 ≤ c.toNat && !isBlank c)

/-- Whether a character can continue a name. -/
def isWordChar (c : Char) : Bool := isLetter c || isDigit c

/-- The token that a word is, given the tokens that can come next: a word with a meaning
of its own if that can come next, and a name otherwise. -/
def Token.ofWord (expected : TokenSet) (word : List Char) : Token :=
  match words.find? fun entry => entry.1.toList == word with
  | some (_, token) => if expected.contains token then token else .identifier
  | none => .identifier

/-! ## Lexemes -/

/-- A token in a text. -/
structure Lexeme where
  token : Token
  /-- How many characters before it do not count. -/
  lead : Nat
  text : List Char
  /-- The text after it. -/
  after : List Char
deriving Repr

namespace Lexeme

/-- The tokens that are neither words nor marks, with their scans. -/
def forms : List (Token × Scan) :=
  [(.comment, Scan.comment), (.rawString, Scan.rawString), (.quotedString, Scan.quotedString),
    (.integer, Scan.integer), (.float, Scan.float), (.imaginary, Scan.imaginary),
    (.rune, Scan.rune)]

/-- The marks with their scans. -/
def markForms : List (Token × Scan) :=
  Token.marks.map fun (mark, token) => (token, Scan.exactly mark.toList)

/-- The longest of the tokens that can come next at the start of a text. -/
def longest (expected : TokenSet) (text : List Char) : Option (Token × Cut) :=
  (markForms ++ forms).foldl
    (fun best (token, scan) =>
      if token == .comment || expected.contains token then
        match best, scan ⟨0, text⟩ with
        | best, none => best
        | none, some cut => some (token, cut)
        | some known, some cut =>
            if known.2.taken < cut.taken then some (token, cut) else some known
      else best)
    none

/-- The token at the start of a text that does not start with a blank. -/
def here (expected : TokenSet) (lead : Nat) (text : List Char) : Lexeme :=
  match text with
  | [] =>
      let token :=
        if !expected.contains .endOfText && expected.contains .nul then Token.nul
        else .endOfText
      { token, lead, text := [], after := [] }
  | c :: rest =>
      if isLetter c then
        let word := text.takeWhile isWordChar
        { token := .ofWord expected word, lead, text := word,
          after := text.dropWhile isWordChar }
      else
        match longest expected text with
        | some (token, cut) =>
            { token, lead, text := text.take cut.taken, after := cut.rest }
        | none => { token := .stray, lead, text := [c], after := rest }

/-- The next token of a text, after `lead` blanks.  A line break is a token only where
it can come next. -/
def nextAfter (expected : TokenSet) (lead : Nat) : List Char → Lexeme
  | [] => here expected lead []
  | c :: rest =>
      if c = '\n' && expected.contains .lineEnd then
        { token := .lineEnd, lead, text := [c], after := rest }
      else if isBlank c then nextAfter expected (lead + 1) rest
      else here expected lead (c :: rest)

/-- The next token of a text. -/
def next (expected : TokenSet) (text : List Char) : Lexeme := nextAfter expected 0 text

end Lexeme

end GoAtlas.Source
