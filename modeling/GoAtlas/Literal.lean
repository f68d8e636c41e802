import GoAtlas.Fault
import GoAtlas.Text.Utf8

/-!
# Quoted literals

Go writes text in three kinds of quotes: interpreted strings, raw strings and
runes.  `unquote` reads any of them and gives the text it denotes.

An interpreted string or rune is a sequence of elements: a character that stands
for itself, or an escape.  Each element denotes bytes (`readElement`), the body
denotes their concatenation (`readBody`), and the value is the text those bytes
encode, read leniently because numeric escapes can denote bytes that encode
nothing.

The closing quote is looked for at the end of the literal only; a quote of the
same kind before it is then met as an element and refused.
-/

namespace GoAtlas.Literal

/-! ## Digits -/

/-- The value of a hexadecimal digit. -/
def hexDigit? (c : Char) : Option Nat :=
  if '0' ≤ c ∧ c ≤ '9' then some (c.toNat - '0'.toNat)
  else if 'a' ≤ c ∧ c ≤ 'f' then some (c.toNat - 'a'.toNat + 10)
  else if 'A' ≤ c ∧ c ≤ 'F' then some (c.toNat - 'A'.toNat + 10)
  else none

/-- The value of an octal digit. -/
def octalDigit? (c : Char) : Option Nat :=
  if '0' ≤ c ∧ c ≤ '7' then some (c.toNat - '0'.toNat) else none

/-- The number written by exactly `count` digits of the given base after the
digits already read, which denote `value`, and the text after them. -/
def takeDigits (digit? : Char → Option Nat) (base : Nat) :
    (count value : Nat) → List Char → Option (Nat × List Char)
  | 0, value, rest => some (value, rest)
  | _ + 1, _, [] => none
  | count + 1, value, c :: rest =>
      match digit? c with
      | some d => takeDigits digit? base count (value * base + d) rest
      | none => none

/-- The character with the given code, if it is a Unicode scalar value. -/
def scalar? (code : Nat) : Option Char :=
  if code.isValidChar then some (Char.ofNat code) else none

/-! ## Elements -/

/-- The byte denoted by an escape of one letter. -/
def letterEscape? : Char → Option UInt8
  | 'a' => some 0x07
  | 'b' => some 0x08
  | 'f' => some 0x0C
  | 'n' => some 0x0A
  | 'r' => some 0x0D
  | 't' => some 0x09
  | 'v' => some 0x0B
  | '\\' => some 0x5C
  | _ => none

/-- Reads an escape by the number of a code point, written with `count`
hexadecimal digits. -/
def readCodePoint (count : Nat) (text : List Char) :
    Except LiteralFault (List UInt8 × List Char) :=
  match takeDigits hexDigit? 16 count 0 text with
  | none => .error .hexDigits
  | some (code, rest) =>
      match scalar? code with
      | none => .error .codePoint
      | some c => .ok (String.utf8EncodeChar c, rest)

/-- Reads what follows the backslash of an escape in a literal with the given
quote: the bytes it denotes and the text after it. -/
def readEscape (quote : Char) : List Char → Except LiteralFault (List UInt8 × List Char)
  | [] => .error .trailingBackslash
  | c :: rest =>
      match letterEscape? c with
      | some byte => .ok ([byte], rest)
      | none =>
          if c = quote then .ok (String.utf8EncodeChar c, rest)
          else if c = 'x' then
            match takeDigits hexDigit? 16 2 0 rest with
            | none => .error .hexDigits
            | some (value, rest) => .ok ([value.toUInt8], rest)
          else if c = 'u' then readCodePoint 4 rest
          else if c = 'U' then readCodePoint 8 rest
          else
            match octalDigit? c with
            | none => .error (.unknownEscape c)
            | some first =>
                match takeDigits octalDigit? 8 2 first rest with
                | none => .error .octalDigits
                | some (value, rest) =>
                    if 255 < value then .error .octalRange else .ok ([value.toUInt8], rest)

/-- Reads the element that starts with the character `c`. -/
def readElement (quote c : Char) (rest : List Char) :
    Except LiteralFault (List UInt8 × List Char) :=
  if c = '\\' then readEscape quote rest
  else if c = '\n' then .error .lineBreak
  else if c = quote then .error .bareQuote
  else .ok (String.utf8EncodeChar c, rest)

/-! ## Reading takes from the text -/

theorem takeDigits_length {digit? : Char → Option Nat} {base : Nat} {count value n : Nat}
    {text rest : List Char} (h : takeDigits digit? base count value text = some (n, rest)) :
    rest.length ≤ text.length := by
  fun_induction takeDigits digit? base count value text with
  | case1 => simp_all
  | case2 => simp at h
  | case3 value count c rest' d hd ih =>
      have := ih h
      simp only [List.length_cons]
      omega
  | case4 => simp at h

theorem readCodePoint_length {count : Nat} {text rest : List Char} {bytes : List UInt8}
    (h : readCodePoint count text = .ok (bytes, rest)) : rest.length ≤ text.length := by
  unfold readCodePoint at h
  split at h
  · simp at h
  · rename_i htake
    split at h
    · simp at h
    · simp only [Except.ok.injEq, Prod.mk.injEq] at h
      exact h.2 ▸ takeDigits_length htake

theorem readEscape_length {quote : Char} {text rest : List Char} {bytes : List UInt8}
    (h : readEscape quote text = .ok (bytes, rest)) : rest.length < text.length := by
  cases text with
  | nil => simp [readEscape] at h
  | cons c tail =>
      simp only [List.length_cons]
      suffices rest.length ≤ tail.length by omega
      simp only [readEscape] at h
      split at h
      · simp only [Except.ok.injEq, Prod.mk.injEq] at h
        simp [h.2]
      split at h
      · simp only [Except.ok.injEq, Prod.mk.injEq] at h
        simp [h.2]
      split at h
      · split at h
        · simp at h
        · rename_i htake
          simp only [Except.ok.injEq, Prod.mk.injEq] at h
          exact h.2 ▸ takeDigits_length htake
      split at h
      · exact readCodePoint_length h
      split at h
      · exact readCodePoint_length h
      split at h
      · simp at h
      · split at h
        · simp at h
        · rename_i htake
          split at h
          · simp at h
          · simp only [Except.ok.injEq, Prod.mk.injEq] at h
            exact h.2 ▸ takeDigits_length htake

/-- An element takes at least its first character. -/
theorem readElement_length {quote c : Char} {text rest : List Char} {bytes : List UInt8}
    (h : readElement quote c text = .ok (bytes, rest)) : rest.length < text.length + 1 := by
  unfold readElement at h
  split at h
  · exact Nat.lt_succ_of_lt (readEscape_length h)
  split at h
  · simp at h
  split at h
  · simp at h
  · simp only [Except.ok.injEq, Prod.mk.injEq] at h
    simp [h.2]

/-! ## Literals -/

/-- The bytes denoted by the body of an interpreted string or rune. -/
def readBody (quote : Char) : List Char → Except LiteralFault (List UInt8)
  | [] => .ok []
  | c :: rest =>
      match _h : readElement quote c rest with
      | .error fault => .error fault
      | .ok (bytes, rest') =>
          match readBody quote rest' with
          | .error fault => .error fault
          | .ok more => .ok (bytes ++ more)
termination_by text => text.length
decreasing_by exact readElement_length _h

/-- The text denoted by the body of an interpreted string or rune. -/
def decode (quote : Char) (body : List Char) : Except LiteralFault (List Char) :=
  (readBody quote body).map Utf8.decodeLossy

/-- The text denoted by a literal with the given quote and body. -/
def readQuoted (quote : Char) (body : List Char) : Except LiteralFault (List Char) :=
  if quote = '`' then
    if '`' ∈ body then .error .backquote else .ok (body.filter (· != '\r'))
  else if quote = '"' then decode '"' body
  else if quote = '\'' then
    match decode '\'' body with
    | .error fault => .error fault
    | .ok value => if value.length = 1 then .ok value else .error .runeLength
  else .error .notQuoted

/-- The text denoted by a literal, given as its characters. -/
def read : List Char → Except LiteralFault (List Char)
  | [] => .error .empty
  | [c] => if c.toNat < 0x80 then .error .unterminated else .error .loneCharacter
  | quote :: c :: rest =>
      if (c :: rest).getLast? = some quote then readQuoted quote (c :: rest).dropLast
      else .error .unterminated

/-- The text denoted by a quoted literal. -/
def unquote (literal : String) : Except Fault String :=
  match read literal.toList with
  | .error cause => .error (.literal cause literal)
  | .ok value => .ok (String.ofList value)

end GoAtlas.Literal
