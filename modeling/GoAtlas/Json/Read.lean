import GoAtlas.Json.Basic
import GoAtlas.Literal
import GoAtlas.Text.Decimal
import GoAtlas.Text.Reader

/-!
# Reading JSON

`Json.scan?` reads a text that is one JSON value with blanks around it.  What is well
formed but has no value is kept as it is written: numbers too large for a double, strings
with half of a surrogate pair, and arrays and objects nested more than 127 deep.
`Json.read?` refuses it.

A reader for a part of the text gives the value it found and the text after it.
-/

namespace GoAtlas.Json

/-- The blanks between the tokens of a JSON text. -/
def isSpace (c : Char) : Bool :=
  c == ' ' || c == '\n' || c == '\t' || c == '\r'

/-- The text after any blanks. -/
def skipSpace (text : List Char) : List Char :=
  text.dropWhile isSpace

/-- The nesting that is read at most. -/
def maxDepth : Nat := 127

/-! ## Strings -/

/-- The number written by four hexadecimal digits. -/
def hex4? (a b c d : Char) : Option Nat :=
  match Literal.hexDigit? a, Literal.hexDigit? b, Literal.hexDigit? c, Literal.hexDigit? d with
  | some a, some b, some c, some d => some (((a * 16 + b) * 16 + c) * 16 + d)
  | _, _, _, _ => none

/-- Whether a UTF-16 unit is the first half of a surrogate pair. -/
def isHighSurrogate (unit : Nat) : Bool :=
  0xD800 ≤ unit && unit ≤ 0xDBFF

/-- Whether a UTF-16 unit is the second half of a surrogate pair. -/
def isLowSurrogate (unit : Nat) : Bool :=
  0xDC00 ≤ unit && unit ≤ 0xDFFF

/-- The character denoted by an escape of one letter. -/
def letterEscape? : Char → Option Char
  | '"' => some '"'
  | '\\' => some '\\'
  | '/' => some '/'
  | 'b' => some '\x08'
  | 'f' => some '\x0c'
  | 'n' => some '\n'
  | 'r' => some '\r'
  | 't' => some '\t'
  | _ => none

/-- The character denoted by a surrogate pair. -/
def surrogatePair (high low : Nat) : Char :=
  Char.ofNat (0x10000 + (high - 0xD800) * 0x400 + (low - 0xDC00))

/-- The rest of a string with a character before it.  If the first half of a surrogate pair
precedes that, the string has no text. -/
def withChar (high : Option Nat) (c : Char) (tail : Option (Option (List Char) × List Char)) :
    Option (Option (List Char) × List Char) :=
  tail.map fun (text, rest) => (if high.isNone then text.map (c :: ·) else none, rest)

/-- The rest of a string, as one that has no text. -/
def withoutText (tail : Option (Option (List Char) × List Char)) :
    Option (Option (List Char) × List Char) :=
  tail.map fun (_, rest) => (none, rest)

/-- Reads the rest of a string after its opening quote, or after the first half of a
surrogate pair.  A string in which half of a pair stands alone has no text. -/
def readStringBody : (high : Option Nat) → List Char → Option (Option (List Char) × List Char)
  | _, [] => none
  | high, '"' :: rest => some (if high.isNone then some [] else none, rest)
  | high, '\\' :: 'u' :: a :: b :: c :: d :: rest =>
      match hex4? a b c d, high with
      | none, _ => none
      | some unit, some high =>
          if isLowSurrogate unit then
            withChar none (surrogatePair high unit) (readStringBody none rest)
          else withoutText (readStringBody none rest)
      | some unit, none =>
          if isLowSurrogate unit then withoutText (readStringBody none rest)
          else if isHighSurrogate unit then readStringBody (some unit) rest
          else withChar none (Char.ofNat unit) (readStringBody none rest)
  | high, '\\' :: e :: rest =>
      match letterEscape? e with
      | some c => withChar high c (readStringBody none rest)
      | none => none
  | high, c :: rest =>
      if c.toNat < 0x20 || c == '\\' then none
      else withChar high c (readStringBody none rest)

/-- What a text has before the text `rest` that it ends in. -/
def written (text rest : List Char) : String :=
  String.ofList (text.take (text.length - rest.length))

/-! ## Numbers -/

/-- The value of a number from its parts: sign, integer digits, fraction digits if
there is a point, and exponent if there is one. -/
def ofNumber? (negative : Bool) (whole : List Char) (fraction : Option (List Char))
    (exponent : Option Int) : Option Json :=
  let mantissa := digitsValue (whole ++ fraction.getD [])
  let signed : Int := if negative then -mantissa else mantissa
  if fraction.isNone && exponent.isNone && !(negative && mantissa == 0) &&
      -(signedLimit : Int) ≤ signed && signed < wordLimit then
    some (.int signed)
  else if isFiniteRounded whole (fraction.getD []) (exponent.getD 0) then
    some (.decimal signed (exponent.getD 0 - (fraction.getD []).length))
  else none

/-- Reads the fraction of a number, if there is one. -/
def readFraction : List Char → Option (Option (List Char) × List Char)
  | '.' :: rest =>
      let digits := rest.takeWhile isDigit
      if digits.isEmpty then none else some (some digits, rest.dropWhile isDigit)
  | text => some (none, text)

/-- Reads the digits of an exponent after its sign. -/
def readExponentDigits (negative : Bool) (text : List Char) :
    Option (Option Int × List Char) :=
  let digits := text.takeWhile isDigit
  if digits.isEmpty then none
  else
    let value : Int := digitsValue digits
    some (some (if negative then -value else value), text.dropWhile isDigit)

/-- Reads the exponent of a number, if there is one. -/
def readExponent : List Char → Option (Option Int × List Char)
  | c :: rest =>
      if c == 'e' || c == 'E' then
        match rest with
        | '+' :: rest => readExponentDigits false rest
        | '-' :: rest => readExponentDigits true rest
        | rest => readExponentDigits false rest
      else some (none, c :: rest)
  | [] => some (none, [])

/-- Reads a number after its sign. -/
def readNumber (negative : Bool) (text : List Char) : Option (Json × List Char) :=
  let digits := text.takeWhile isDigit
  match digits with
  | [] => none
  | first :: more =>
      if first == '0' && !more.isEmpty then none
      else
        match readFraction (text.dropWhile isDigit) with
        | none => none
        | some (fraction, rest) =>
            match readExponent rest with
            | none => none
            | some (exponent, rest) =>
                let raw := Json.raw (String.ofList (if negative then ['-'] else []) ++
                  written text rest)
                some ((ofNumber? negative digits fraction exponent).getD raw, rest)

/-! ## Values -/

/-- Reads a value that is neither array nor object. -/
def readScalar : List Char → Option (Json × List Char)
  | 'n' :: rest => (expect? "ull".toList rest).map (Json.null, ·)
  | 't' :: rest => (expect? "rue".toList rest).map (Json.bool true, ·)
  | 'f' :: rest => (expect? "alse".toList rest).map (Json.bool false, ·)
  | '"' :: text =>
      (readStringBody none text).map fun (body, rest) =>
        match body with
        | some body => (.str (String.ofList body), rest)
        | none => (.raw (String.ofList ['"'] ++ written text rest), rest)
  | '-' :: rest => readNumber true rest
  | text => readNumber false text

/-- Reads items separated by commas up to the closing bracket, at most `count` of
them. -/
def readItems (item : List Char → Option (Json × List Char)) :
    (count : Nat) → List Char → Option (List Json × List Char)
  | 0, _ => none
  | count + 1, text =>
      match item text with
      | none => none
      | some (value, rest) =>
          match skipSpace rest with
          | ',' :: rest => (readItems item count rest).map fun (more, rest) => (value :: more, rest)
          | ']' :: rest => some ([value], rest)
          | _ => none

/-- Reads entries separated by commas up to the closing brace, at most `count` of
them.  If a key has no text, the entries have no value. -/
def readEntries (item : List Char → Option (Json × List Char)) :
    (count : Nat) → List Char → Option (Option (List (String × Json)) × List Char)
  | 0, _ => none
  | count + 1, text =>
      match skipSpace text with
      | '"' :: rest =>
          match readStringBody none rest with
          | none => none
          | some (key, rest) =>
              match skipSpace rest with
              | ':' :: rest =>
                  match item rest with
                  | none => none
                  | some (value, rest) =>
                      let entry := key.map fun key => (String.ofList key, value)
                      match skipSpace rest with
                      | ',' :: rest =>
                          (readEntries item count rest).map fun (more, rest) =>
                            (entry.bind fun entry => more.map (entry :: ·), rest)
                      | '\x7d' :: rest => some (entry.map ([·]), rest)
                      | _ => none
              | _ => none
      | _ => none

/-- The value of an array or object that stands inside of others, kept as it is written if
it has none or if no more levels are left. -/
def nested (levels : Nat) (text rest : List Char) (value : Option Json) : Json :=
  match levels, value with
  | _ + 1, some value => value
  | _, _ => .raw (written text rest)

/-- Reads a value, after any blanks.  Arrays and objects have values up to `levels` deep;
`depth` bounds how deep they can be at all. -/
def readValue : (depth levels : Nat) → List Char → Option (Json × List Char)
  | 0, _, _ => none
  | depth + 1, levels, text =>
      let text := skipSpace text
      match text with
      | '[' :: rest =>
          match skipSpace rest with
          | ']' :: rest => some (nested levels text rest (some (.arr [])), rest)
          | inner =>
              (readItems (readValue depth (levels - 1)) inner.length inner).map
                fun (items, rest) => (nested levels text rest (some (.arr items)), rest)
      | '\x7b' :: rest =>
          match skipSpace rest with
          | '\x7d' :: rest => some (nested levels text rest (some (.obj [])), rest)
          | inner =>
              (readEntries (readValue depth (levels - 1)) inner.length inner).map
                fun (entries, rest) => (nested levels text rest (entries.map .obj), rest)
      | text => readScalar text

/-- The value that a text is the JSON form of, parts without a value included. -/
def scan? (text : String) : Option Json :=
  let chars := text.toList
  match readValue (chars.length + 1) maxDepth chars with
  | some (value, rest) => if (skipSpace rest).isEmpty then some value else none
  | none => none

/-- The plain value that a text is the JSON form of. -/
def read? (text : String) : Option Json := (scan? text).filter isPlain

end GoAtlas.Json
