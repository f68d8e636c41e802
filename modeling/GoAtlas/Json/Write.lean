import GoAtlas.Json.Basic

/-!
# Writing JSON

`Json.compact` writes a value without blanks, `Json.pretty` over several lines with
two spaces for each level.  Strings are escaped only where JSON demands it: the
quote, the backslash and the control characters.
-/

namespace GoAtlas.Json

/-- A hexadecimal digit in lower case. -/
def hexDigit (n : Nat) : Char :=
  if n < 10 then Char.ofNat ('0'.toNat + n) else Char.ofNat ('a'.toNat + (n - 10))

/-- A character of a string as it is written between the quotes. -/
def escapeChar (c : Char) : List Char :=
  match c with
  | '"' => ['\\', '"']
  | '\\' => ['\\', '\\']
  | '\x08' => ['\\', 'b']
  | '\x0c' => ['\\', 'f']
  | '\n' => ['\\', 'n']
  | '\r' => ['\\', 'r']
  | '\t' => ['\\', 't']
  | c =>
      if c.toNat < 0x20 then
        ['\\', 'u', '0', '0', hexDigit (c.toNat / 16), hexDigit (c.toNat % 16)]
      else [c]

/-- A string in quotes. -/
def quote (text : String) : List Char :=
  '"' :: text.toList.flatMap escapeChar ++ ['"']

/-- An integer in decimal. -/
def intChars (n : Int) : List Char :=
  match n with
  | .ofNat n => Nat.toDigits 10 n
  | .negSucc n => '-' :: Nat.toDigits 10 (n + 1)

/-- A number with an exponent. -/
def decimalChars (mantissa exponent : Int) : List Char :=
  intChars mantissa ++ 'e' :: intChars exponent

mutual

/-- The text of a value without blanks, with the text `rest` after it. -/
def compactOnto (rest : List Char) : Json → List Char
  | .null => "null".toList ++ rest
  | .bool true => "true".toList ++ rest
  | .bool false => "false".toList ++ rest
  | .int n => intChars n ++ rest
  | .decimal mantissa exponent => decimalChars mantissa exponent ++ rest
  | .str text => quote text ++ rest
  | .raw text => text.toList ++ rest
  | .arr items => '[' :: compactItems (']' :: rest) items
  | .obj entries => '\x7b' :: compactEntries ('\x7d' :: rest) entries

/-- The texts of the items of an array with commas between them. -/
def compactItems (rest : List Char) : List Json → List Char
  | [] => rest
  | [item] => item.compactOnto rest
  | item :: more => item.compactOnto (',' :: compactItems rest more)

/-- The texts of the entries of an object with commas between them. -/
def compactEntries (rest : List Char) : List (String × Json) → List Char
  | [] => rest
  | [(key, value)] => quote key ++ ':' :: value.compactOnto rest
  | (key, value) :: more =>
      quote key ++ ':' :: value.compactOnto (',' :: compactEntries rest more)

end

/-- A line break and the blanks of the given level. -/
def newLine (level : Nat) : List Char :=
  '\n' :: List.replicate (2 * level) ' '

mutual

/-- The text of a value over several lines, inside `level` arrays and objects, with the
text `rest` after it. -/
def prettyOnto (level : Nat) (rest : List Char) : Json → List Char
  | .null => "null".toList ++ rest
  | .bool true => "true".toList ++ rest
  | .bool false => "false".toList ++ rest
  | .int n => intChars n ++ rest
  | .decimal mantissa exponent => decimalChars mantissa exponent ++ rest
  | .str text => quote text ++ rest
  | .raw text => text.toList ++ rest
  | .arr [] => '[' :: ']' :: rest
  | .arr (item :: more) =>
      '[' :: prettyItems (level + 1) (newLine level ++ ']' :: rest) (item :: more)
  | .obj [] => '\x7b' :: '\x7d' :: rest
  | .obj (entry :: more) =>
      '\x7b' :: prettyEntries (level + 1) (newLine level ++ '\x7d' :: rest) (entry :: more)

/-- The items of an array, each on a line of its own. -/
def prettyItems (level : Nat) (rest : List Char) : List Json → List Char
  | [] => rest
  | [item] => newLine level ++ item.prettyOnto level rest
  | item :: more => newLine level ++ item.prettyOnto level (',' :: prettyItems level rest more)

/-- The entries of an object, each on a line of its own. -/
def prettyEntries (level : Nat) (rest : List Char) : List (String × Json) → List Char
  | [] => rest
  | [(key, value)] => newLine level ++ quote key ++ ':' :: ' ' :: value.prettyOnto level rest
  | (key, value) :: more =>
      newLine level ++ quote key ++ ':' :: ' ' ::
        value.prettyOnto level (',' :: prettyEntries level rest more)

end

/-- The text of a value without blanks. -/
def compact (json : Json) : String :=
  String.ofList (json.compactOnto [])

/-- The text of a value over several lines. -/
def pretty (json : Json) : String :=
  String.ofList (json.prettyOnto 0 [])

end GoAtlas.Json
