/-!
# UTF-8, read leniently

A quoted literal may denote any sequence of bytes.  Its value is the text those
bytes encode in UTF-8, where every maximal run of bytes that starts a character
without completing it, and every byte that cannot start one, is read as the
replacement character `U+FFFD`.

`decodeLossy` reads a byte sequence.  Writing is `encode`, one character after
another.
-/

namespace GoAtlas.Utf8

/-- The bytes of a text. -/
def encode (text : List Char) : List UInt8 :=
  text.flatMap String.utf8EncodeChar

/-- The character read in place of bytes that encode none. -/
def replacement : Char := Char.ofNat 0xFFFD

/-- `low ≤ b ≤ high`. -/
def within (low high : Nat) (b : UInt8) : Bool :=
  low ≤ b.toNat && b.toNat ≤ high

/-- The six bits carried by a continuation byte. -/
def tail (b : UInt8) : Nat :=
  b.toNat - 0x80

/-- The bytes that may follow the first byte of a character of three bytes. -/
def secondOfThree (first second : UInt8) : Bool :=
  if first.toNat = 0xE0 then within 0xA0 0xBF second
  else if first.toNat = 0xED then within 0x80 0x9F second
  else within 0x80 0xBF second

/-- The bytes that may follow the first byte of a character of four bytes. -/
def secondOfFour (first second : UInt8) : Bool :=
  if first.toNat = 0xF0 then within 0x90 0xBF second
  else if first.toNat = 0xF4 then within 0x80 0x8F second
  else within 0x80 0xBF second

/-- The character that starts with the byte `first`, and how many of the bytes
of `rest` belong to it. -/
def decodeFirst (first : UInt8) (rest : List UInt8) : Char × Nat :=
  if first.toNat < 0x80 then (Char.ofNat first.toNat, 0)
  else if within 0xC2 0xDF first then
    match rest with
    | b :: _ =>
        if within 0x80 0xBF b then (Char.ofNat ((first.toNat - 0xC0) * 64 + tail b), 1)
        else (replacement, 0)
    | [] => (replacement, 0)
  else if within 0xE0 0xEF first then
    match rest with
    | b :: more =>
        if !secondOfThree first b then (replacement, 0)
        else
          match more with
          | c :: _ =>
              if within 0x80 0xBF c then
                (Char.ofNat ((first.toNat - 0xE0) * 4096 + tail b * 64 + tail c), 2)
              else (replacement, 1)
          | [] => (replacement, 1)
    | [] => (replacement, 0)
  else if within 0xF0 0xF4 first then
    match rest with
    | b :: more =>
        if !secondOfFour first b then (replacement, 0)
        else
          match more with
          | c :: more' =>
              if !within 0x80 0xBF c then (replacement, 1)
              else
                match more' with
                | d :: _ =>
                    if within 0x80 0xBF d then
                      (Char.ofNat ((first.toNat - 0xF0) * 262144 + tail b * 4096 +
                        tail c * 64 + tail d), 3)
                    else (replacement, 2)
                | [] => (replacement, 2)
          | [] => (replacement, 1)
    | [] => (replacement, 0)
  else (replacement, 0)

/-- The text that a byte sequence encodes, with `U+FFFD` for what encodes
nothing. -/
def decodeLossy : List UInt8 → List Char
  | [] => []
  | first :: rest =>
      let (c, used) := decodeFirst first rest
      c :: decodeLossy (rest.drop used)
termination_by bytes => bytes.length
decreasing_by
  rw [List.length_drop, List.length_cons]
  omega

end GoAtlas.Utf8
