import GoAtlas.Toml.Document
import GoAtlas.Toml.Number
import GoAtlas.Toml.Quoted

/-!
# Reading TOML

`Toml.read?` reads a document.  A line break is a line feed, with or without a carriage
return in front of it; since both mean the same everywhere, carriage returns of line
breaks are dropped at the start, and any other one is an error like every control
character.

Arrays and inline tables may be nested 79 deep, and a key may have as many parts.
-/

namespace GoAtlas.Toml

open Quoted (isSpace isPlain)

/-- The nesting that is read at most, and the number of parts of a key. -/
def maxDepth : Nat := 79

/-! ## Blanks and comments -/

/-- The text after any blanks. -/
def skipSpace (text : List Char) : List Char :=
  text.dropWhile isSpace

/-- The text after any blanks, line breaks and comments. -/
def skipFiller : (inComment : Bool) → List Char → Option (List Char)
  | _, [] => some []
  | true, c :: rest =>
      if c = '\n' then skipFiller false rest
      else if isPlain c then skipFiller true rest
      else none
  | false, c :: rest =>
      if isSpace c ∨ c = '\n' then skipFiller false rest
      else if c = '#' then skipFiller true rest
      else some (c :: rest)

/-- The text after the end of a line: blanks and a comment may stand in front of it. -/
def afterLine? (text : List Char) : Option (List Char) :=
  match skipSpace text with
  | [] => some []
  | '\n' :: rest => some rest
  | '#' :: rest => skipFiller true rest
  | _ => none

/-! ## Keys -/

/-- Whether a character may stand in a key without quotes. -/
def isKeyChar (c : Char) : Bool :=
  ('A' ≤ c && c ≤ 'Z') || ('a' ≤ c && c ≤ 'z') || isDigit c || c == '_' || c == '-'

/-- Reads one part of a key. -/
def readKeyPart : Reader (List Char)
  | '"' :: rest => Quoted.readBasic none rest
  | '\'' :: rest => Quoted.readLiteral rest
  | text =>
      if (text.takeWhile isKeyChar).isEmpty then none
      else some (text.takeWhile isKeyChar, text.dropWhile isKeyChar)

/-- Reads a key of at most `count` parts with dots between them, and the blanks around
it. -/
def readKey : (count : Nat) → Reader (List String)
  | 0, _ => none
  | count + 1, text =>
      match readKeyPart (skipSpace text) with
      | none => none
      | some (part, rest) =>
          match skipSpace rest with
          | '.' :: rest =>
              (readKey count rest).map fun (more, rest) => (String.ofList part :: more, rest)
          | rest => some ([String.ofList part], rest)

/-! ## Values -/

/-- Reads a value that is neither array nor table. -/
def readScalar (text : List Char) : Option (Toml × List Char) :=
  match text with
  | 't' :: rest => (expect? "rue".toList rest).map (.bool true, ·)
  | 'f' :: rest => (expect? "alse".toList rest).map (.bool false, ·)
  | '"' :: _ => (Quoted.read text).map fun (body, rest) => (.str (String.ofList body), rest)
  | '\'' :: _ => (Quoted.read text).map fun (body, rest) => (.str (String.ofList body), rest)
  | text =>
      match readMoment text with
      | some read => some read
      | none => readNumber text

/-- Reads the items of an array up to its closing bracket, at most `count` of them.
A comma may follow the last one. -/
def readItems (item : Reader Toml) : (count : Nat) → Reader (List Toml)
  | 0, _ => none
  | count + 1, text =>
      match skipFiller false text with
      | none => none
      | some (']' :: rest) => some ([], rest)
      | some text =>
          match item text with
          | none => none
          | some (value, rest) =>
              match skipFiller false rest with
              | some (',' :: rest) =>
                  (readItems item count rest).map fun (more, rest) => (value :: more, rest)
              | some (']' :: rest) => some ([value], rest)
              | _ => none

/-- Reads a key, an equals sign and a value. -/
def readPair? (item : Reader Toml) (text : List Char) :
    Option ((List String × Toml) × List Char) :=
  match readKey maxDepth text with
  | some (key, '=' :: rest) =>
      (item (skipSpace rest)).map fun (value, rest) => ((key, value), rest)
  | _ => none

/-- Reads the pairs of an inline table up to its closing brace, at most `count` of
them. -/
def readPairs (item : Reader Toml) : (count : Nat) → Reader (List (List String × Toml))
  | 0, _ => none
  | count + 1, text =>
      match readPair? item text with
      | none => none
      | some (pair, rest) =>
          match skipSpace rest with
          | ',' :: rest =>
              (readPairs item count rest).map fun (more, rest) => (pair :: more, rest)
          | '\x7d' :: rest => some ([pair], rest)
          | _ => none

/-- The table made of pairs. -/
def tableOf? (pairs : List (List String × Toml)) : Option Toml :=
  (pairs.foldlM (fun entries pair => addPair pair.1 pair.2 .header entries) []).map fun entries =>
    .table (entriesToToml entries)

/-- Reads a value with at most `depth` nested arrays and tables. -/
def readValue : (depth : Nat) → Reader Toml
  | 0, text =>
      match text with
      | '[' :: _ => none
      | '\x7b' :: _ => none
      | text => readScalar text
  | depth + 1, text =>
      match text with
      | '[' :: rest =>
          (readItems (readValue depth) (rest.length + 1) rest).map fun (items, rest) =>
            (.arr items, rest)
      | '\x7b' :: rest =>
          match skipSpace rest with
          | '\x7d' :: rest => some (.table [], rest)
          | _ =>
              match readPairs (readValue depth) (rest.length + 1) rest with
              | none => none
              | some (pairs, rest) => (tableOf? pairs).map (·, rest)
      | text => readScalar text

/-! ## Documents -/

/-- A document while it is read. -/
structure Draft where
  /-- The header that is in force. -/
  header : List String := []
  entries : Entries := []

/-- Reads a header after its opening bracket. -/
def readHeader (text : List Char) : Option ((Bool × List String) × List Char) :=
  match text with
  | '[' :: rest =>
      match readKey maxDepth rest with
      | some (key, ']' :: ']' :: rest) => some ((true, key), rest)
      | _ => none
  | text =>
      match readKey maxDepth text with
      | some (key, ']' :: rest) => some ((false, key), rest)
      | _ => none

/-- Reads one header or key-value pair into a document. -/
def readExpression (draft : Draft) (text : List Char) : Option (Draft × List Char) :=
  match text with
  | '[' :: rest =>
      match readHeader rest with
      | none => none
      | some ((isElement, header), rest) =>
          (addHeader isElement header draft.entries).map fun entries =>
            (⟨header, entries⟩, rest)
  | text =>
      match readPair? (readValue maxDepth) text with
      | none => none
      | some ((key, value), rest) =>
          (underHeader (addPair key value) draft.header draft.entries).map fun entries =>
            (⟨draft.header, entries⟩, rest)

/-- Reads headers and key-value pairs up to the end of the text, at most `count` of
them. -/
def readExpressions : (count : Nat) → Draft → List Char → Option Entries
  | 0, _, _ => none
  | count + 1, draft, text =>
      match skipFiller false text with
      | none => none
      | some [] => some draft.entries
      | some text =>
          match readExpression draft text with
          | none => none
          | some (draft, rest) =>
              match afterLine? rest with
              | none => none
              | some rest => readExpressions count draft rest

/-- A text in which line breaks are line feeds only. -/
def unifyBreaks : List Char → List Char
  | '\r' :: '\n' :: rest => '\n' :: unifyBreaks rest
  | c :: rest => c :: unifyBreaks rest
  | [] => []

/-- A text without the byte order mark it starts with. -/
def dropMark : List Char → List Char
  | '\uFEFF' :: rest => rest
  | text => text

/-- The entries of the document that a text is. -/
def read? (text : String) : Option (List (String × Toml)) :=
  let text := unifyBreaks (dropMark text.toList)
  (readExpressions (text.length + 1) {} text).map entriesToToml

end GoAtlas.Toml
