import GoAtlas.Literal
import GoAtlas.Text.Decimal
import GoAtlas.Text.Reader
import GoAtlas.Toml.Basic

/-!
# TOML numbers and dates

Integers have 64 bits.  A number that is too large for a double is refused, unless it
is negative.  Of dates and times it is checked that they exist.
-/

namespace GoAtlas.Toml

/-! ## Digits -/

/-- Reads digits, with single underscores between them. -/
def readDigits (isDigit : Char → Bool) : Reader (List Char)
  | [] => none
  | c :: rest =>
      if !isDigit c then none
      else
        match rest with
        | [] => some ([c], [])
        | '_' :: more => prepend c (readDigits isDigit more)
        | d :: more =>
            if isDigit d then prepend c (readDigits isDigit (d :: more))
            else some ([c], d :: more)

/-- Reads the digits in front of a fraction.  A zero stands alone. -/
def readWhole : Reader (List Char)
  | '0' :: rest => some (['0'], rest)
  | text => readDigits isDigit text

/-- Reads a sign, if there is one: whether it is a minus. -/
def readSign : List Char → Bool × List Char
  | '-' :: rest => (true, rest)
  | '+' :: rest => (false, rest)
  | text => (false, text)

/-! ## Integers -/

/-- Whether a number is an integer of 64 bits. -/
def isInt64 (n : Int) : Bool :=
  -(signedLimit : Int) ≤ n && n < signedLimit

/-- The integer, if it has 64 bits. -/
def int64? (n : Int) : Option Toml :=
  if isInt64 n then some (.int n) else none

/-- The number written by digits of a base. -/
def valueIn (base : Nat) (digits : List Char) : Nat :=
  digits.foldl (fun n c => n * base + (Literal.hexDigit? c).getD 0) 0

/-- Reads the digits of a natural number in a base. -/
def readInBase (base : Nat) (text : List Char) : Option (Toml × List Char) :=
  match readDigits (fun c => (Literal.hexDigit? c).any (· < base)) text with
  | none => none
  | some (digits, rest) => (int64? (valueIn base digits)).map (·, rest)

/-! ## Numbers with a fraction or an exponent -/

/-- Reads a fraction, if there is one. -/
def readFraction : Reader (Option (List Char))
  | '.' :: rest => (readDigits isDigit rest).map fun (digits, rest) => (some digits, rest)
  | text => some (none, text)

/-- Reads an exponent, if there is one. -/
def readExponent : Reader (Option Int)
  | c :: rest =>
      if c == 'e' || c == 'E' then
        let (negative, rest) := readSign rest
        (readDigits isDigit rest).map fun (digits, rest) =>
          (some (if negative then -(digitsValue digits : Int) else digitsValue digits), rest)
      else some (none, c :: rest)
  | [] => some (none, [])

/-- The beginning of a text, up to the rest of it. -/
def before (text rest : List Char) : String :=
  String.ofList (text.take (text.length - rest.length))

/-- Reads a decimal number after its sign; `text` is the number with its sign. -/
def readDecimal (text : List Char) (negative : Bool) (unsigned : List Char) :
    Option (Toml × List Char) :=
  match readWhole unsigned with
  | none => none
  | some (whole, rest) =>
      match readFraction rest with
      | none => none
      | some (fraction, rest) =>
          match readExponent rest with
          | none => none
          | some (exponent, rest) =>
              if fraction.isNone && exponent.isNone then
                let value : Int := digitsValue whole
                (int64? (if negative then -value else value)).map (·, rest)
              else if negative || isFiniteDecimal (digitsValue (whole ++ fraction.getD []))
                  (exponent.getD 0 - (fraction.getD []).length) then
                some (.float (before text rest), rest)
              else none

/-- Reads a number. -/
def readNumber (text : List Char) : Option (Toml × List Char) :=
  match text with
  | '0' :: 'x' :: rest => readInBase 16 rest
  | '0' :: 'o' :: rest => readInBase 8 rest
  | '0' :: 'b' :: rest => readInBase 2 rest
  | text =>
      let (negative, unsigned) := readSign text
      match unsigned with
      | 'i' :: 'n' :: 'f' :: rest => some (.float (before text rest), rest)
      | 'n' :: 'a' :: 'n' :: rest => some (.float (before text rest), rest)
      | unsigned => readDecimal text negative unsigned

/-! ## Dates and times -/

/-- Reads a number of two digits from `least` to `most`. -/
def readPair (least most : Nat) : Reader Nat
  | a :: b :: rest =>
      let n := digitsValue [a, b]
      if isDigit a && isDigit b && least ≤ n && n ≤ most then some (n, rest) else none
  | _ => none

/-- The number of days of a month. -/
def daysOfMonth (year month : Nat) : Nat :=
  let isLeap := (year % 4 == 0 && year % 100 != 0) || year % 400 == 0
  if month == 2 then (if isLeap then 29 else 28)
  else if month == 4 || month == 6 || month == 9 || month == 11 then 30
  else 31

/-- The text after a date. -/
def afterDate? (text : List Char) : Option (List Char) := do
  let (century, rest) ← readPair 0 99 text
  let (year, rest) ← readPair 0 99 rest
  let rest ← expect? ['-'] rest
  let (month, rest) ← readPair 1 12 rest
  let rest ← expect? ['-'] rest
  let (_, rest) ← readPair 1 (daysOfMonth (century * 100 + year) month) rest
  return rest

/-- The text after a fraction of a second, if there is one. -/
def afterSplit : List Char → List Char
  | '.' :: rest =>
      if (rest.takeWhile isDigit).isEmpty then '.' :: rest else rest.dropWhile isDigit
  | text => text

/-- The text after a time of day. -/
def afterTime? (text : List Char) : Option (List Char) := do
  let (_, rest) ← readPair 0 23 text
  let rest ← expect? [':'] rest
  let (_, rest) ← readPair 0 59 rest
  let rest ← expect? [':'] rest
  let (_, rest) ← readPair 0 60 rest
  return afterSplit rest

/-- The text after an offset of a time zone, if there is one. -/
def afterOffset : List Char → List Char
  | [] => []
  | c :: rest =>
      if c == 'Z' || c == 'z' then rest
      else if c == '+' || c == '-' then
        match readPair 0 23 rest with
        | some (_, ':' :: minutes) =>
            match readPair 0 59 minutes with
            | some (_, rest) => rest
            | none => c :: rest
        | _ => c :: rest
      else c :: rest

/-- The text after a time of day behind a date, if there is one. -/
def afterDateTime : List Char → List Char
  | [] => []
  | c :: rest =>
      if c == 'T' || c == 't' || c == ' ' then
        match afterTime? rest with
        | some rest => afterOffset rest
        | none => c :: rest
      else c :: rest

/-- Reads a date, a time of day, or both. -/
def readMoment (text : List Char) : Option (Toml × List Char) :=
  match afterDate? text with
  | some rest =>
      let rest := afterDateTime rest
      some (.datetime (before text rest), rest)
  | none => (afterTime? text).map fun rest => (.datetime (before text rest), rest)

end GoAtlas.Toml
