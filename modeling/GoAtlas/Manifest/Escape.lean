/-!
# Module paths in the module cache

The module cache keeps modules in directories named after their paths.  Because
file systems may not tell upper case from lower case, an ASCII capital is written as
an exclamation mark and the small letter.
-/

namespace GoAtlas

/-- Whether a character is an ASCII capital. -/
def isAsciiUpper (c : Char) : Bool :=
  'A' ≤ c && c ≤ 'Z'

/-- Whether a character is a small ASCII letter. -/
def isAsciiLower (c : Char) : Bool :=
  'a' ≤ c && c ≤ 'z'

/-- The small letter of an ASCII capital; any other character itself. -/
def asciiLower (c : Char) : Char :=
  if isAsciiUpper c then Char.ofNat (c.toNat + 32) else c

/-- The capital of a small ASCII letter; any other character itself. -/
def asciiUpper (c : Char) : Char :=
  if isAsciiLower c then Char.ofNat (c.toNat - 32) else c

/-- Writes each ASCII capital as an exclamation mark and the small letter. -/
def escapeChars : List Char → List Char
  | [] => []
  | c :: rest =>
      if isAsciiUpper c then '!' :: asciiLower c :: escapeChars rest else c :: escapeChars rest

/-- Reads the character after each exclamation mark as a capital.  An exclamation
mark at the end stands for nothing. -/
def unescapeChars : List Char → List Char
  | [] => []
  | ['!'] => []
  | '!' :: c :: rest => asciiUpper c :: unescapeChars rest
  | c :: rest => c :: unescapeChars rest

/-- A module path as it is written in the module cache. -/
def escapeModulePath (path : String) : String :=
  String.ofList (escapeChars path.toList)

/-- The module path that is written in the module cache in the given way. -/
def unescapeModulePath (path : String) : String :=
  String.ofList (unescapeChars path.toList)

end GoAtlas
