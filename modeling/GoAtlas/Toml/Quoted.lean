import GoAtlas.Literal
import GoAtlas.Text.Reader

/-!
# TOML strings

A string is written in one of four styles: between double quotes with escapes, between
single quotes as it is, and either of them between tripled quotes, where line breaks may
occur.  `Quoted.write` picks the plainest style that can hold a text; the readers take
every style.

A reader for quotes with escapes goes from character to character and remembers how far
it has come in an escape.
-/

namespace GoAtlas.Toml.Quoted

/-- The blanks inside a line. -/
def isSpace (c : Char) : Bool :=
  c == ' ' || c == '\t'

/-- Whether a character may stand in a line as it is: every character but the control
characters, of which only the tab may. -/
def isPlain (c : Char) : Bool :=
  c == '\t' || (0x20 ≤ c.toNat && c.toNat != 0x7F)

/-! ## Escapes -/

/-- How far a reader has come in an escape. -/
inductive Escape where
  /-- Behind the backslash. -/
  | start
  /-- `left + 1` hexadecimal digits are missing behind those that denote `code`. -/
  | digits (left code : Nat)
deriving DecidableEq, Repr

/-- What one more character makes of an escape. -/
inductive Progress where
  /-- The escape is complete and denotes a character. -/
  | denotes (c : Char)
  | goesOn (escape : Escape)
  | fails
deriving DecidableEq, Repr

/-- The character denoted by an escape of one letter. -/
def letterEscape? : Char → Option Char
  | 'b' => some '\x08'
  | 't' => some '\t'
  | 'n' => some '\n'
  | 'f' => some '\x0c'
  | 'r' => some '\r'
  | '"' => some '"'
  | '\\' => some '\\'
  | _ => none

/-- Takes one more character of an escape. -/
def Escape.next : Escape → Char → Progress
  | .start, 'u' => .goesOn (.digits 3 0)
  | .start, 'U' => .goesOn (.digits 7 0)
  | .start, c =>
      match letterEscape? c with
      | some d => .denotes d
      | none => .fails
  | .digits left code, c =>
      match Literal.hexDigit? c, left with
      | none, _ => .fails
      | some digit, left + 1 => .goesOn (.digits left (code * 16 + digit))
      | some digit, 0 =>
          match Literal.scalar? (code * 16 + digit) with
          | some d => .denotes d
          | none => .fails

/-! ## Reading -/

/-- Reads the rest of a string in double quotes. -/
def readBasic : Option Escape → Reader (List Char)
  | _, [] => none
  | some escape, c :: rest =>
      match escape.next c with
      | .denotes d => prepend d (readBasic none rest)
      | .goesOn escape => readBasic (some escape) rest
      | .fails => none
  | none, c :: rest =>
      if c = '"' then some ([], rest)
      else if c = '\\' then readBasic (some .start) rest
      else if isPlain c then prepend c (readBasic none rest)
      else none

/-- Reads the rest of a string in single quotes. -/
def readLiteral : Reader (List Char)
  | [] => none
  | c :: rest =>
      if c = '\'' then some ([], rest)
      else if isPlain c then prepend c (readLiteral rest)
      else none

/-- What a quote closes that is followed by the given text: the quotes in front of the
last three, at most two, belong to the string. -/
def close? (quote : Char) (text : List Char) : Option (List Char × List Char) :=
  match expect? [quote, quote, quote, quote] text with
  | some rest => some ([quote, quote], rest)
  | none =>
      match expect? [quote, quote, quote] text with
      | some rest => some ([quote], rest)
      | none => (expect? [quote, quote] text).map ([], ·)

/-- Where a reader stands in a string of several lines. -/
inductive Spot where
  | plain
  | escape (escape : Escape)
  /-- Behind a backslash and blanks, in front of a line break. -/
  | gap
  /-- Behind a backslash and a line break, where blanks and line breaks are left
  out. -/
  | trim
deriving DecidableEq, Repr

/-- Reads the rest of a string in tripled double quotes. -/
def readBasicLines : Spot → Reader (List Char)
  | _, [] => none
  | .escape escape, c :: rest =>
      match escape.next c with
      | .denotes d => prepend d (readBasicLines .plain rest)
      | .goesOn escape => readBasicLines (.escape escape) rest
      | .fails =>
          if escape = .start ∧ isSpace c then readBasicLines .gap rest
          else if escape = .start ∧ c = '\n' then readBasicLines .trim rest
          else none
  | .gap, c :: rest =>
      if isSpace c then readBasicLines .gap rest
      else if c = '\n' then readBasicLines .trim rest
      else none
  | spot, c :: rest =>
      if spot = .trim ∧ (isSpace c ∨ c = '\n') then readBasicLines .trim rest
      else if c = '"' then
        match close? '"' rest with
        | some closed => some closed
        | none => prepend c (readBasicLines .plain rest)
      else if c = '\\' then readBasicLines (.escape .start) rest
      else if isPlain c ∨ c = '\n' then prepend c (readBasicLines .plain rest)
      else none

/-- Reads the rest of a string in tripled single quotes. -/
def readLiteralLines : Reader (List Char)
  | [] => none
  | c :: rest =>
      if c = '\'' then
        match close? '\'' rest with
        | some closed => some closed
        | none => prepend c (readLiteralLines rest)
      else if isPlain c ∨ c = '\n' then prepend c (readLiteralLines rest)
      else none

/-- A text without the line break it starts with. -/
def dropBreak : List Char → List Char
  | '\n' :: rest => rest
  | text => text

/-- Reads a string of any style. -/
def read : Reader (List Char)
  | '"' :: '"' :: '"' :: rest => readBasicLines .plain (dropBreak rest)
  | '\'' :: '\'' :: '\'' :: rest => readLiteralLines (dropBreak rest)
  | '"' :: rest => readBasic none rest
  | '\'' :: rest => readLiteral rest
  | _ => none

/-! ## Writing -/

/-- A way to write a string. -/
inductive Style where
  | basic
  | literal
  | basicLines
  | literalLines
deriving DecidableEq, Repr

/-- Whether a text holds three of a character in a row. -/
def hasTripled (quote : Char) : List Char → Bool
  | a :: b :: c :: rest =>
      (a == quote && b == quote && c == quote) || hasTripled quote (b :: c :: rest)
  | _ => false

/-- The style that a text is written in: the first that can hold it, in an order that
puts plain styles first. -/
def Style.of (text : List Char) : Style :=
  let hasControl := text.any fun c => !isPlain c && c != '\n'
  let hasBreak := text.contains '\n'
  if !hasControl && !text.contains '\\' && !text.contains '"' && !hasBreak then .basic
  else if !hasControl && !text.contains '\'' && !hasBreak then .literal
  else if !hasControl && !text.contains '\\' && !hasTripled '"' text then .basicLines
  else if !hasControl && !hasTripled '\'' text then .literalLines
  else if hasBreak then .basicLines
  else .basic

/-- The escape for a control character, other than the line break, or a backslash. -/
def escape (c : Char) : List Char :=
  match c with
  | '\x08' => ['\\', 'b']
  | '\t' => ['\\', 't']
  | '\n' => ['\\', 'n']
  | '\x0c' => ['\\', 'f']
  | '\r' => ['\\', 'r']
  | '\\' => ['\\', '\\']
  | c =>
      let hex (n : Nat) : Char := if n < 10 then Char.ofNat (0x30 + n) else Char.ofNat (0x37 + n)
      ['\\', 'u', '0', '0', hex (c.toNat / 16), hex (c.toNat % 16)]

/-- Whether a character is written by an escape wherever it stands. -/
def needsEscape (c : Char) : Bool :=
  !isPlain c || c == '\t' || c == '\\'

/-- The text between the quotes of a style with escapes.  Of double quotes in a row
`most` are written as they are and the next one by an escape; `run` is the number of
them in front of the text. -/
def escaped (most : Nat) (allowBreaks : Bool) : (run : Nat) → List Char → List Char
  | _, [] => []
  | run, c :: rest =>
      if c = '"' then
        if run < most then c :: escaped most allowBreaks (run + 1) rest
        else '\\' :: '"' :: escaped most allowBreaks 0 rest
      else if needsEscape c && !(allowBreaks && c == '\n') then
        escape c ++ escaped most allowBreaks 0 rest
      else c :: escaped most allowBreaks 0 rest

/-- The line break behind tripled quotes, which is written when there are others. -/
def openBreak (text : List Char) : List Char :=
  if text.contains '\n' then ['\n'] else []

/-- A text in a given style. -/
def writeIn (style : Style) (text : List Char) : List Char :=
  match style with
  | .basic => '"' :: escaped 0 false 0 text ++ ['"']
  | .literal => '\'' :: text ++ ['\'']
  | .basicLines =>
      ['"', '"', '"'] ++ openBreak text ++ escaped 2 true 0 text ++ ['"', '"', '"']
  | .literalLines => ['\'', '\'', '\''] ++ openBreak text ++ text ++ ['\'', '\'', '\'']

/-- A text as a string. -/
def write (text : List Char) : List Char :=
  writeIn (Style.of text) text

end GoAtlas.Toml.Quoted
