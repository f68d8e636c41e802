import GoAtlas.Proofs.Tag
import GoAtlas.Proofs.Text.Slices

/-!
# Reading literals and tags by offsets

Literals and the pairs of a tag can also be found by offsets in bytes: the body of a literal is
the slice between its quotes, and a value of a tag ends where stepping over its bytes meets a
quote, two bytes at a time from a backslash.  A slice whose ends are out of order or fall into a
character cannot be taken, and then nothing is read at all.

This happens for one kind of literal only, a lone character beyond ASCII
(`unquoteSliced?_eq_none_iff`).  After a backslash the second byte stepped over may be the first
of several, but the others are neither quotes nor backslashes, so stepping on reaches the end of
the character (`scan_escaped`).  Hence a quoted value is found where `takeQuoted` finds it, no
round fails (`roundSliced?_eq`), and what is read is the same (`sliced_safely`).
-/

namespace GoAtlas

/-! ## Literals -/

namespace Literal

/-- Reads a literal as `unquote` does, its body being taken by offsets, if it can be taken. -/
def unquoteSliced? (literal : String) : Option (Except Fault String) :=
  match literal.toList.head? with
  | none => some (.error (.literal .empty literal))
  | some quote =>
      if literal.utf8ByteSize < 2 ∨ literal.toList.getLast? ≠ some quote then
        some (.error (.literal .unterminated literal))
      else
        (slice? literal quote.utf8Size (literal.utf8ByteSize - quote.utf8Size)).map fun body =>
          match readQuoted quote body.toList with
          | .error cause => .error (.literal cause literal)
          | .ok value => .ok (String.ofList value)

variable {literal : String} {quote c : Char} {text body : List Char}

theorem utf8Size_lt_two_iff : c.utf8Size < 2 ↔ c.toNat < 0x80 := by
  have hone : c.utf8Size = 1 ↔ c.toNat ≤ 127 :=
    Char.utf8Size_eq_one_iff.trans UInt32.le_iff_toNat_le
  have hpos := c.utf8Size_pos
  omega

theorem utf8ByteSize_of_toList (hliteral : literal.toList = [c]) :
    literal.utf8ByteSize = c.utf8Size := by
  rw [← length_encode, hliteral, Utf8.encode_cons, List.length_append, String.length_utf8EncodeChar]
  rfl

theorem two_le_utf8ByteSize (hliteral : literal.toList = quote :: c :: text) :
    2 ≤ literal.utf8ByteSize := by
  have hquote := quote.utf8Size_pos
  have hc := c.utf8Size_pos
  rw [← length_encode, hliteral, Utf8.encode_cons, Utf8.encode_cons, List.length_append,
    List.length_append, String.length_utf8EncodeChar, String.length_utf8EncodeChar]
  omega

/-- The body can be taken by the offsets of the quotes. -/
theorem slice?_body (hliteral : literal.toList = quote :: (body ++ [quote])) :
    slice? literal quote.utf8Size (literal.utf8ByteSize - quote.utf8Size) =
      some (String.ofList body) := by
  have hparts : literal =
      String.singleton quote ++ String.ofList body ++ String.singleton quote :=
    String.toList_inj.mp (by simp [hliteral])
  rw [slice?_eq_some_iff]
  refine ⟨String.singleton quote, String.singleton quote, hparts, String.utf8ByteSize_singleton, ?_⟩
  rw [hparts, String.utf8ByteSize_append, String.utf8ByteSize_append, String.utf8ByteSize_singleton]
  omega

/-- The body of a lone character would end before it begins. -/
theorem unquoteSliced?_of_isLone (hlone : IsLone literal.toList) :
    unquoteSliced? literal = none := by
  obtain ⟨c, hliteral, hbeyond⟩ := hlone
  have hsize : ¬ c.utf8Size < 2 := by
    rw [utf8Size_lt_two_iff]
    omega
  have hslice : slice? literal c.utf8Size 0 = none := by
    rw [slice?, dif_neg]
    rintro ⟨-, -, hle⟩
    omega
  simp [unquoteSliced?, hliteral, utf8ByteSize_of_toList hliteral, hsize, hslice]

theorem unquoteSliced?_of_not_isLone (hlone : ¬ IsLone literal.toList) :
    unquoteSliced? literal = some (unquote literal) := by
  unfold unquoteSliced? unquote
  match hliteral : literal.toList with
  | [] => rfl
  | [c] =>
      have hascii : c.toNat < 0x80 := by
        by_contra hbeyond
        exact hlone ⟨c, hliteral, Nat.le_of_not_lt hbeyond⟩
      have hsize : literal.utf8ByteSize < 2 := by
        rwa [utf8ByteSize_of_toList hliteral, utf8Size_lt_two_iff]
      simp [read, hsize, hascii]
  | quote :: c :: text =>
      have hsize : ¬ literal.utf8ByteSize < 2 := Nat.not_lt.mpr (two_le_utf8ByteSize hliteral)
      by_cases hlast : (c :: text).getLast? = some quote
      · have hbody : literal.toList = quote :: ((c :: text).dropLast ++ [quote]) := by
          rw [hliteral, List.dropLast_append_getLast? quote hlast]
        cases hquoted : readQuoted quote (c :: text).dropLast with
        | error => simp [hsize, hlast, slice?_body hbody, read, hquoted]
        | ok => simp [hsize, hlast, slice?_body hbody, read, hquoted]
      · simp [hsize, hlast, read]

theorem unquoteSliced?_eq_none_iff : unquoteSliced? literal = none ↔ IsLone literal.toList := by
  constructor
  · intro hnone
    by_contra hlone
    rw [unquoteSliced?_of_not_isLone hlone] at hnone
    cases hnone
  · exact unquoteSliced?_of_isLone

theorem unquote_eq_loneCharacter_iff {raw : String} :
    unquote literal = .error (.literal .loneCharacter raw) ↔
      IsLone literal.toList ∧ raw = literal := by
  rw [← read_eq_loneCharacter_iff, unquote]
  cases read literal.toList with
  | error cause => simp [eq_comm]
  | ok value => simp

/-- What reading a literal by offsets comes to. -/
structure SafelySliced (literal : String) : Prop where
  /-- The body cannot be taken if and only if the literal is a lone character. -/
  fails : unquoteSliced? literal = none ↔ IsLone literal.toList
  /-- Otherwise the literal is read as it is read without offsets. -/
  succeeds : ¬ IsLone literal.toList → unquoteSliced? literal = some (unquote literal)
  /-- Where the body cannot be taken, reading without offsets says so. -/
  reported : unquote literal = .error (.literal .loneCharacter literal) ↔ IsLone literal.toList

theorem safelySliced (literal : String) : SafelySliced literal where
  fails := unquoteSliced?_eq_none_iff
  succeeds := unquoteSliced?_of_not_isLone
  reported := by rw [unquote_eq_loneCharacter_iff, and_iff_left rfl]

end Literal

namespace Tags

/-! ## Stepping over bytes -/

/-- Steps over bytes from an index on, two at a time from a backslash: the index of the first double
quote that is met, or one that is not in the bytes. -/
def scan (bytes : List UInt8) (i : Nat) : Nat :=
  if h : i < bytes.length then
    if bytes[i] = 0x22 then i
    else if bytes[i] = 0x5C then scan bytes (i + 2)
    else scan bytes (i + 1)
  else i
termination_by bytes.length - i

variable {front middle back : List UInt8} {byte : UInt8} {c : Char}
  {text body quoted after : List Char} {pair : TagPair} {literal : String}

theorem scan_cons (front : List UInt8) (byte : UInt8) (back : List UInt8) :
    scan (front ++ byte :: back) front.length =
      if byte = 0x22 then front.length
      else if byte = 0x5C then scan (front ++ byte :: back) (front.length + 2)
      else scan (front ++ byte :: back) (front.length + 1) := by
  rw [scan, dif_pos (by simp)]
  simp only [List.getElem_append_right (Nat.le_refl _), Nat.sub_self, List.getElem_cons_zero]

theorem scan_of_le {i : Nat} (hle : front.length ≤ i) : scan front i = i := by
  rw [scan, dif_neg (Nat.not_lt.mpr hle)]

/-- Bytes that are neither quotes nor backslashes are stepped over one by one. -/
theorem scan_append (hplain : ∀ byte ∈ middle, byte ≠ 0x22 ∧ byte ≠ 0x5C) :
    scan (front ++ (middle ++ back)) front.length =
      scan ((front ++ middle) ++ back) (front ++ middle).length := by
  induction middle generalizing front with
  | nil => rw [List.nil_append, List.append_nil]
  | cons byte middle ih =>
      obtain ⟨⟨hquote, hslash⟩, hplain⟩ := List.forall_mem_cons.mp hplain
      have hnext : scan ((front ++ [byte]) ++ (middle ++ back)) (front ++ [byte]).length = _ :=
        ih hplain
      rw [List.cons_append, scan_cons, if_neg hquote, if_neg hslash]
      simpa using hnext

/-! ## Stepping over characters -/

theorem ne_of_beyond (hbeyond : 0x80 ≤ byte.toNat) : byte ≠ 0x22 ∧ byte ≠ 0x5C := by
  constructor
  · rintro rfl
    exact absurd hbeyond (by decide)
  · rintro rfl
    exact absurd hbeyond (by decide)

/-- Only a quote and a backslash have their bytes. -/
theorem ne_of_mem_utf8EncodeChar (hquote : c ≠ '"') (hslash : c ≠ '\\') :
    ∀ byte ∈ String.utf8EncodeChar c, byte ≠ 0x22 ∧ byte ≠ 0x5C := by
  intro byte hmem
  rcases (Utf8.written_utf8EncodeChar c).ascii_or_beyond with ⟨first, hbytes, hfirst⟩ | hbeyond
  · rw [hbytes, List.mem_singleton] at hmem
    subst hmem
    constructor
    · rintro rfl
      exact hquote (Char.toNat_inj.mp hfirst.symm)
    · rintro rfl
      exact hslash (Char.toNat_inj.mp hfirst.symm)
  · exact ne_of_beyond (hbeyond byte hmem)

/-- The bytes of a character after its first one are no quotes or backslashes. -/
theorem ne_of_mem_tail {first : UInt8} {more : List UInt8}
    (hbytes : String.utf8EncodeChar c = first :: more) :
    ∀ byte ∈ more, byte ≠ 0x22 ∧ byte ≠ 0x5C := by
  intro byte hmem
  rcases (Utf8.written_utf8EncodeChar c).ascii_or_beyond with ⟨first', hone, -⟩ | hbeyond
  · rw [hbytes, List.cons.injEq] at hone
    rw [hone.2] at hmem
    cases hmem
  · rw [hbytes] at hbeyond
    exact ne_of_beyond (hbeyond byte (List.mem_cons_of_mem _ hmem))

theorem scan_plain (hquote : c ≠ '"') (hslash : c ≠ '\\') :
    scan (front ++ Utf8.encode (c :: text)) front.length =
      scan (front ++ String.utf8EncodeChar c ++ Utf8.encode text)
        (front ++ String.utf8EncodeChar c).length := by
  rw [Utf8.encode_cons]
  exact scan_append (ne_of_mem_utf8EncodeChar hquote hslash)

theorem encode_escaped (c : Char) (text : List Char) :
    Utf8.encode ('\\' :: c :: text) = 0x5C :: String.utf8EncodeChar c ++ Utf8.encode text := by
  have hslash : String.utf8EncodeChar '\\' = [0x5C] := by decide
  rw [Utf8.encode_cons, Utf8.encode_cons, hslash, List.singleton_append, List.cons_append]

/-- After a backslash and any character, stepping is at the end of the character. -/
theorem scan_escaped :
    scan (front ++ Utf8.encode ('\\' :: c :: text)) front.length =
      scan (front ++ 0x5C :: String.utf8EncodeChar c ++ Utf8.encode text)
        (front ++ 0x5C :: String.utf8EncodeChar c).length := by
  obtain ⟨first, more, hbytes⟩ := List.exists_cons_of_ne_nil
    (String.utf8EncodeChar_ne_nil : String.utf8EncodeChar c ≠ [])
  -- Two bytes are stepped over at once, which may end inside the character.
  have hmore : scan ((front ++ [0x5C, first]) ++ (more ++ Utf8.encode text))
      (front ++ [0x5C, first]).length = _ := scan_append (ne_of_mem_tail hbytes)
  rw [encode_escaped, hbytes, List.cons_append, scan_cons, if_neg (by decide), if_pos rfl]
  simpa using hmore

/-! ## Where a quoted value ends -/

/-- Stepping ends at the quote after the body of a value. -/
theorem scan_of_isTagBody (hbody : IsTagBody body) :
    scan (front ++ Utf8.encode (body ++ '"' :: after)) front.length =
      front.length + (Utf8.encode body).length := by
  induction hbody generalizing front with
  | nil =>
      have hquote : String.utf8EncodeChar '"' = [0x22] := by decide
      rw [List.nil_append, Utf8.encode_cons, hquote, List.singleton_append, scan_cons, if_pos rfl]
      rfl
  | @plain c body hquote hslash _ ih =>
      rw [List.cons_append, scan_plain hquote hslash, ih, Utf8.encode_cons, List.length_append,
        List.length_append, Nat.add_assoc]
  | @escaped c body _ ih =>
      rw [List.cons_append, List.cons_append, scan_escaped, ih, encode_escaped, List.length_append,
        List.length_append, Nat.add_assoc]

/-- Stepping passes all bytes if no value ends in them. -/
theorem le_scan_of_takeQuoted_eq_none (hnone : takeQuoted text = none) :
    (front ++ Utf8.encode text).length ≤ scan (front ++ Utf8.encode text) front.length := by
  induction text using takeQuoted.induct generalizing front with
  | case1 =>
      have hall : front ++ Utf8.encode [] = front := List.append_nil front
      rw [hall, scan_of_le (Nat.le_refl _)]
  | case2 => cases hnone
  | case3 c rest ih =>
      rw [scan_escaped, encode_escaped, ← List.append_assoc]
      exact ih (Option.map_eq_none_iff.mp hnone)
  | case4 c rest hquote hunit ih =>
      rw [takeQuoted.eq_4 c rest hquote hunit] at hnone
      by_cases hslash : c = '\\'
      · subst hslash
        cases rest with
        | nil =>
            -- The backslash is the last byte, and stepping ends past the end.
            have hbytes : Utf8.encode ['\\'] = [0x5C] := by decide
            rw [hbytes, scan_cons, if_neg (by decide), if_pos rfl, scan_of_le (by simp)]
            simp
        | cons d rest => exact absurd rfl (hunit d rest rfl)
      · rw [scan_plain hquote hslash, Utf8.encode_cons, ← List.append_assoc]
        exact ih (Option.map_eq_none_iff.mp hnone)

/-! ## One round -/

/-- A text without the spaces at its beginning. -/
def trimmed (text : String) : String := String.ofList (text.toList.dropWhile (· == ' '))

/-- The offset where the key ends that a text begins with. -/
def keyEnd (text : String) : Nat :=
  (String.ofList (text.toList.takeWhile isKeyChar)).utf8ByteSize

/-- The offset of the quote that ends the value which a text begins with, or one not in the text. -/
def valueEnd (text : String) : Nat := scan (Utf8.encode text.toList) 1

/-- The key that a text begins with, and the text from the quote after its colon on.  There may be
none, and there is no answer at all if a part cannot be taken. -/
def keySliced? (text : String) : Option (Option (String × String)) :=
  if keyEnd text = 0 then some none
  else do
    let rest ← slice? text (keyEnd text) text.utf8ByteSize
    if [':', '"'] <+: rest.toList then
      let key ← slice? text 0 (keyEnd text)
      let value ← slice? text (keyEnd text + 1) text.utf8ByteSize
      return some (key, value)
    else return none

/-- The quoted value that a text begins with, and the text after it, likewise. -/
def valueSliced? (text : String) : Option (Option (String × String)) :=
  if valueEnd text < text.utf8ByteSize then do
    let quoted ← slice? text 0 (valueEnd text + 1)
    let after ← slice? text (valueEnd text + 1) text.utf8ByteSize
    return some (quoted, after)
  else some none

/-- Finds a pair as `takePair` does, its parts being taken by offsets. -/
def roundSliced? (text : String) : Option (Option (TagPair × String)) := do
  match ← keySliced? (trimmed text) with
  | none => return none
  | some (key, value) =>
      match ← valueSliced? value with
      | none => return none
      | some (quoted, after) => return some (⟨key, quoted⟩, after)

/-- The key is a text of its own, and so is what follows it. -/
theorem exists_key (text : String) :
    ∃ key rest : String, text = key ++ rest ∧ key.toList = text.toList.takeWhile isKeyChar ∧
      rest.toList = text.toList.dropWhile isKeyChar ∧ keyEnd text = key.utf8ByteSize ∧
      slice? text (keyEnd text) text.utf8ByteSize = some rest := by
  let key := String.ofList (text.toList.takeWhile isKeyChar)
  let rest := String.ofList (text.toList.dropWhile isKeyChar)
  have htext : text = key ++ rest := by
    rw [← String.ofList_append, List.takeWhile_append_dropWhile, String.ofList_toList]
  have hslice : slice? (key ++ rest) key.utf8ByteSize (key ++ rest).utf8ByteSize = some rest :=
    slice?_back key rest
  rw [← htext] at hslice
  exact ⟨key, rest, htext, String.toList_ofList, String.toList_ofList, rfl, hslice⟩

theorem isBoundary_keyEnd (text : String) : IsBoundary text (keyEnd text) := by
  obtain ⟨key, rest, htext, -, -, hend, -⟩ := exists_key text
  exact isBoundary_iff.mpr ⟨key, rest, htext, hend.symm⟩

theorem keyEnd_eq_zero_iff {text : String} :
    keyEnd text = 0 ↔ text.toList.takeWhile isKeyChar = [] := by
  rw [keyEnd, String.utf8ByteSize_eq_zero_iff, String.ofList_eq_empty_iff]

/-- A key stands at the beginning of a text, and then a colon and a value. -/
def StartsKey (text value : List Char) : Prop :=
  text.takeWhile isKeyChar ≠ [] ∧ text.dropWhile isKeyChar = ':' :: '"' :: value

theorem keySliced?_of_startsKey {text : String} {value : List Char}
    (hstarts : StartsKey text.toList value) :
    keySliced? text = some (some
      (String.ofList (text.toList.takeWhile isKeyChar), String.ofList ('"' :: value))) := by
  obtain ⟨hne, hvalue⟩ := hstarts
  obtain ⟨key, rest, htext, hkey, hrest, hend, hslice⟩ := exists_key text
  have hcolon : rest = ":" ++ String.ofList ('"' :: value) :=
    String.toList_inj.mp (by simp [hrest, hvalue])
  have hone : (key ++ ":").utf8ByteSize = keyEnd text + 1 := by
    rw [hend, utf8ByteSize_append_one rfl]
  have hfront : slice? text 0 (keyEnd text) = some key := by
    rw [hend, htext]
    exact slice?_front key rest
  have hback : slice? text (keyEnd text + 1) text.utf8ByteSize =
      some (String.ofList ('"' :: value)) := by
    rw [← hone, htext, hcolon, ← String.append_assoc]
    exact slice?_back (key ++ ":") _
  unfold keySliced?
  rw [if_neg (keyEnd_eq_zero_iff.not.mpr hne), hslice, ← hkey, String.ofList_toList]
  simp [hrest, hvalue, hfront, hback]

theorem keySliced?_of_not_startsKey {text : String}
    (hnot : ∀ value, ¬ StartsKey text.toList value) : keySliced? text = some none := by
  obtain ⟨key, rest, -, -, hrest, -, hslice⟩ := exists_key text
  unfold keySliced?
  by_cases hempty : text.toList.takeWhile isKeyChar = []
  · rw [if_pos (keyEnd_eq_zero_iff.mpr hempty)]
  · have hbegins : ¬ [':', '"'] <+: rest.toList := by
      rintro ⟨value, hvalue⟩
      exact hnot value ⟨hempty, hrest.symm.trans hvalue.symm⟩
    rw [if_neg (keyEnd_eq_zero_iff.not.mpr hempty), hslice]
    simp [hbegins]

theorem encode_quote (text : List Char) :
    Utf8.encode ('"' :: text) = [0x22] ++ Utf8.encode text :=
  Utf8.encode_cons '"' text

/-- Where a value ends, by offsets and as `takeQuoted` finds it. -/
theorem valueEnd_of_some (htake : takeQuoted text = some (quoted, after)) :
    ∃ front back : String, String.ofList ('"' :: text) = front ++ back ∧
      front ++ "\"" = String.ofList ('"' :: quoted) ∧ back = "\"" ++ String.ofList after ∧
      valueEnd (String.ofList ('"' :: text)) = front.utf8ByteSize := by
  obtain ⟨body, hbody, rfl, rfl⟩ := takeQuoted_eq_some_iff.mp htake
  refine ⟨String.ofList ('"' :: body), String.ofList ('"' :: after), ?_, ?_, ?_, ?_⟩
  · rw [← String.ofList_append, List.cons_append]
  · exact String.toList_inj.mp (by simp)
  · exact String.toList_inj.mp (by simp)
  · have hscan : scan ([0x22] ++ Utf8.encode (body ++ '"' :: after)) [(0x22 : UInt8)].length = _ :=
      scan_of_isTagBody hbody
    rw [valueEnd, String.toList_ofList, utf8ByteSize_ofList, encode_quote, encode_quote,
      List.length_append]
    exact hscan

theorem valueEnd_of_none (hnone : takeQuoted text = none) :
    (String.ofList ('"' :: text)).utf8ByteSize ≤ valueEnd (String.ofList ('"' :: text)) := by
  rw [valueEnd, String.toList_ofList, utf8ByteSize_ofList, encode_quote]
  exact le_scan_of_takeQuoted_eq_none hnone

/-- A value ends with a quote, which is one byte between characters. -/
theorem isBoundary_valueEnd {value : String} (hquote : value.toList.head? = some '"')
    (hend : valueEnd value < value.utf8ByteSize) :
    IsBoundary value (valueEnd value) ∧ IsBoundary value (valueEnd value + 1) := by
  obtain ⟨text, htext⟩ := List.head?_eq_some_iff.mp hquote
  obtain rfl : value = String.ofList ('"' :: text) := by rw [← htext, String.ofList_toList]
  cases htake : takeQuoted text with
  | none => exact absurd (valueEnd_of_none htake) (Nat.not_le.mpr hend)
  | some found =>
      obtain ⟨quoted, after⟩ := found
      obtain ⟨front, back, hparts, -, rfl, hsize⟩ := valueEnd_of_some htake
      rw [hsize, hparts, ← (utf8ByteSize_append_one rfl : (front ++ "\"").utf8ByteSize = _)]
      refine ⟨isBoundary_append front _, ?_⟩
      rw [← String.append_assoc]
      exact isBoundary_append _ _

/-- The quoted value and what follows it are found as `takeQuoted` finds them. -/
theorem valueSliced?_eq (text : List Char) :
    valueSliced? (String.ofList ('"' :: text)) = some ((takeQuoted text).map
      fun (quoted, after) => (String.ofList ('"' :: quoted), String.ofList after)) := by
  unfold valueSliced?
  cases htake : takeQuoted text with
  | none => rw [if_neg (Nat.not_lt.mpr (valueEnd_of_none htake)), Option.map_none]
  | some found =>
      obtain ⟨quoted, after⟩ := found
      obtain ⟨front, back, hparts, hquoted, rfl, hsize⟩ := valueEnd_of_some htake
      have hone : front.utf8ByteSize + 1 = (String.ofList ('"' :: quoted)).utf8ByteSize := by
        rw [← hquoted, utf8ByteSize_append_one rfl]
      have hwhole : String.ofList ('"' :: text) =
          String.ofList ('"' :: quoted) ++ String.ofList after := by
        rw [hparts, ← hquoted, String.append_assoc]
      have hlt : front.utf8ByteSize < (String.ofList ('"' :: text)).utf8ByteSize := by
        rw [hwhole, String.utf8ByteSize_append]
        omega
      rw [if_pos (by rwa [hsize]), hsize, hone, hwhole, slice?_front, slice?_back]
      rfl

theorem takePair_of_startsKey {value : List Char}
    (hstarts : StartsKey (text.dropWhile (· == ' ')) value) :
    takePair text = (takeQuoted value).map fun (quoted, after) =>
      (⟨String.ofList ((text.dropWhile (· == ' ')).takeWhile isKeyChar),
        String.ofList ('"' :: quoted)⟩, after) := by
  obtain ⟨hne, hvalue⟩ := hstarts
  unfold takePair
  simp only [hvalue]
  rw [if_neg (by simpa using hne)]

theorem takePair_of_not_startsKey
    (hnot : ∀ value, ¬ StartsKey (text.dropWhile (· == ' ')) value) : takePair text = none := by
  unfold takePair
  simp only
  split
  case isTrue => rfl
  case isFalse hne =>
    split
    case h_1 value hvalue => exact absurd ⟨by simpa using hne, hvalue⟩ (hnot value)
    case h_2 => rfl

/-- A round by offsets finds what `takePair` finds. -/
theorem roundSliced?_eq (rest : String) :
    roundSliced? rest = some ((takePair rest.toList).map
      fun (pair, after) => (pair, String.ofList after)) := by
  have htrimmed : (trimmed rest).toList = rest.toList.dropWhile (· == ' ') := String.toList_ofList
  unfold roundSliced?
  by_cases hstarts : ∃ value, StartsKey (trimmed rest).toList value
  · obtain ⟨value, hstarts⟩ := hstarts
    rw [keySliced?_of_startsKey hstarts, takePair_of_startsKey (htrimmed ▸ hstarts), htrimmed]
    simp only [Option.bind_eq_bind, Option.bind_some, valueSliced?_eq]
    cases takeQuoted value <;> rfl
  · rw [not_exists] at hstarts
    rw [keySliced?_of_not_startsKey hstarts, takePair_of_not_startsKey (htrimmed ▸ hstarts)]
    rfl

theorem roundSliced?_eq_some_iff {rest after : String} {pair : TagPair} :
    roundSliced? rest = some (some (pair, after)) ↔
      takePair rest.toList = some (pair, after.toList) := by
  rw [roundSliced?_eq, Option.some.injEq, Option.map_eq_some_iff]
  constructor
  · rintro ⟨⟨found, left⟩, htake, heq⟩
    rw [Prod.mk.injEq] at heq
    obtain ⟨rfl, rfl⟩ := heq
    rwa [String.toList_ofList]
  · intro htake
    exact ⟨_, htake, congrArg (Prod.mk pair) String.ofList_toList⟩

/-- A round that finds a pair leaves fewer bytes. -/
theorem size_lt_of_roundSliced? {rest after : String} {pair : TagPair}
    (hround : roundSliced? rest = some (some (pair, after))) :
    after.utf8ByteSize < rest.utf8ByteSize := by
  obtain ⟨-, htext⟩ := takePair_eq_some_iff.mp (roundSliced?_eq_some_iff.mp hround)
  have hsplit : rest.toList =
      rest.toList.takeWhile (· == ' ') ++ (pair.chars ++ after.toList) := by
    rw [← htext, List.takeWhile_append_dropWhile]
  have hcolon : 0 < (Utf8.encode pair.chars).length := by
    rw [TagPair.chars, Utf8.encode_append, Utf8.encode_cons, List.length_append,
      List.length_append, String.length_utf8EncodeChar]
    have := Char.utf8Size_pos ':'
    omega
  rw [← length_encode after, ← length_encode rest, hsplit, Utf8.encode_append,
    Utf8.encode_append, List.length_append, List.length_append]
  omega

/-! ## All rounds -/

/-- The pairs of a tag text, found by offsets, if no part is missing in any round. -/
def pairsSliced? (rest : String) : Option (List TagPair) :=
  -- What the round has found is attached because the recursion ends by it.
  (roundSliced? rest).attach.bind fun
    | ⟨none, _⟩ => some []
    | ⟨some (pair, after), _hround⟩ =>
        (Literal.unquoteSliced? pair.quoted).bind fun _ => (pairsSliced? after).map (pair :: ·)
termination_by rest.utf8ByteSize
decreasing_by exact size_lt_of_roundSliced? _hround

/-- Reads a tag as `read` does, all parts being taken by offsets. -/
def readSliced? (literal : String) : Option (Except Fault Tags) := do
  match ← Literal.unquoteSliced? literal with
  | .error fault => return .error fault
  | .ok text =>
      let found ← pairsSliced? text
      return .ok (ofPairs found)

theorem pairsSliced?_of_none {rest : String} (hround : roundSliced? rest = some none) :
    pairsSliced? rest = some [] := by
  have hattach : (roundSliced? rest).attach = some ⟨none, hround⟩ :=
    Option.attach_eq_some_iff.mpr hround
  rw [pairsSliced?, hattach, Option.bind_some]

theorem pairsSliced?_of_some {rest after : String}
    (hround : roundSliced? rest = some (some (pair, after))) :
    pairsSliced? rest = (Literal.unquoteSliced? pair.quoted).bind fun _ =>
      (pairsSliced? after).map (pair :: ·) := by
  have hattach : (roundSliced? rest).attach = some ⟨some (pair, after), hround⟩ :=
    Option.attach_eq_some_iff.mpr hround
  rw [pairsSliced?, hattach, Option.bind_some]

/-- A quoted value begins and ends with a quote, and these are two quotes. -/
theorem quoted_of_isProper (hproper : pair.IsProper) :
    2 ≤ pair.quoted.utf8ByteSize ∧ pair.quoted.toList.head? = some '"' ∧
      pair.quoted.toList.getLast? = some '"' ∧ ¬ Literal.IsLone pair.quoted.toList := by
  obtain ⟨-, body, -, hquoted⟩ := hproper
  obtain ⟨c, text, hrest⟩ : ∃ c text, body ++ ['"'] = c :: text :=
    List.exists_cons_of_ne_nil (by simp)
  refine ⟨Literal.two_le_utf8ByteSize (hquoted.trans (by rw [hrest])), ?_, ?_, ?_⟩
  · rw [hquoted, List.head?_cons]
  · rw [hquoted, ← List.cons_append, List.getLast?_concat]
  · rintro ⟨c, hc, -⟩
    simp [hquoted] at hc

/-- No round fails, and rounds by offsets find the pairs that are found otherwise. -/
theorem pairsSliced?_eq (text : List Char) :
    pairsSliced? (String.ofList text) = some (pairs text) := by
  induction text using pairs.induct with
  | case1 text hnone =>
      have hround : roundSliced? (String.ofList text) = some none := by
        rw [roundSliced?_eq, String.toList_ofList, hnone, Option.map_none]
      rw [pairsSliced?_of_none hround, pairs_of_none hnone]
  | case2 text pair after hsome ih =>
      have hround : roundSliced? (String.ofList text) =
          some (some (pair, String.ofList after)) := by
        rw [roundSliced?_eq_some_iff, String.toList_ofList, String.toList_ofList, hsome]
      obtain ⟨-, -, -, hlone⟩ := quoted_of_isProper (takePair_eq_some_iff.mp hsome).1
      rw [pairsSliced?_of_some hround, Literal.unquoteSliced?_of_not_isLone hlone, Option.bind_some,
        ih, Option.map_some, pairs_of_some hsome]

theorem isProper_of_mem_pairs (hmem : pair ∈ pairs text) : pair.IsProper := by
  induction text using pairs.induct with
  | case1 text hnone =>
      rw [pairs_of_none hnone] at hmem
      cases hmem
  | case2 text found after hsome ih =>
      rw [pairs_of_some hsome, List.mem_cons] at hmem
      rcases hmem with rfl | hmem
      · exact (takePair_eq_some_iff.mp hsome).1
      · exact ih hmem

/-! ## Reading -/

theorem readSliced?_of_isLone (hlone : Literal.IsLone literal.toList) :
    readSliced? literal = none := by
  rw [readSliced?, Literal.unquoteSliced?_of_isLone hlone]
  rfl

theorem readSliced?_of_not_isLone (hlone : ¬ Literal.IsLone literal.toList) :
    readSliced? literal = some (read literal) := by
  rw [readSliced?, read, Literal.unquoteSliced?_of_not_isLone hlone]
  cases Literal.unquote literal with
  | error fault => rfl
  | ok value =>
      have hpairs := pairsSliced?_eq value.toList
      rw [String.ofList_toList] at hpairs
      simp [hpairs]

/-- The value of a pair is never taken for a lone character. -/
theorem reason_ne_loneCharacter {bad : MalformedTag} (hbad : bad ∈ refused (pairs text))
    (raw : String) : bad.reason ≠ .literal .loneCharacter raw := by
  intro hreason
  obtain ⟨pair, hmem, hpair⟩ := List.mem_filterMap.mp hbad
  obtain ⟨-, -, -, hlone⟩ := quoted_of_isProper (isProper_of_mem_pairs hmem)
  split at hpair
  case h_1 => cases hpair
  case h_2 reason hunquote =>
    cases hpair
    obtain rfl : reason = _ := hreason
    exact hlone (Literal.unquote_eq_loneCharacter_iff.mp hunquote).1

/-- What one round by offsets comes to. -/
structure SafeRound (rest : String) : Prop where
  /-- The key ends in the text, and not in a character. -/
  keyEnds : IsBoundary (trimmed rest) (keyEnd (trimmed rest))
  /-- The value ends with a quote between characters, if it ends. -/
  valueEnds : ∀ key value, keySliced? (trimmed rest) = some (some (key, value)) →
    valueEnd value < value.utf8ByteSize →
    IsBoundary value (valueEnd value) ∧ IsBoundary value (valueEnd value + 1)
  /-- All parts can be taken, and the pair is the one that is found without offsets. -/
  succeeds : roundSliced? rest = some ((takePair rest.toList).map
    fun (pair, after) => (pair, String.ofList after))
  /-- A quoted value has two or more bytes, begins and ends with a quote, and its body can be
  taken. -/
  quoted : ∀ pair after, roundSliced? rest = some (some (pair, after)) →
    2 ≤ pair.quoted.utf8ByteSize ∧ pair.quoted.toList.head? = some '"' ∧
      pair.quoted.toList.getLast? = some '"' ∧ Literal.unquoteSliced? pair.quoted ≠ none
  /-- A round that finds a pair leaves fewer bytes. -/
  shortens : ∀ pair after, roundSliced? rest = some (some (pair, after)) →
    after.utf8ByteSize < rest.utf8ByteSize

/-- What reading a tag by offsets comes to. -/
structure SafelyRead (literal : String) : Prop where
  /-- A part cannot be taken if and only if the literal is a lone character. -/
  fails : readSliced? literal = none ↔ Literal.IsLone literal.toList
  /-- Otherwise the tag is read as it is read without offsets. -/
  succeeds : ¬ Literal.IsLone literal.toList → readSliced? literal = some (read literal)
  /-- No value is listed as malformed because its body could not be taken. -/
  reasons : ∀ tags, read literal = .ok tags → ∀ bad ∈ tags.malformed, ∀ raw,
    bad.reason ≠ .literal .loneCharacter raw

theorem head?_of_keySliced? {text key value : String}
    (hkey : keySliced? text = some (some (key, value))) : value.toList.head? = some '"' := by
  by_cases hstarts : ∃ value, StartsKey text.toList value
  · obtain ⟨value, hstarts⟩ := hstarts
    rw [keySliced?_of_startsKey hstarts] at hkey
    cases hkey
    rw [String.toList_ofList, List.head?_cons]
  · rw [keySliced?_of_not_startsKey (not_exists.mp hstarts)] at hkey
    cases hkey

theorem safeRound (rest : String) : SafeRound rest where
  keyEnds := isBoundary_keyEnd _
  valueEnds _ _ hkey := isBoundary_valueEnd (head?_of_keySliced? hkey)
  succeeds := roundSliced?_eq rest
  quoted pair after hround := by
    have hproper := (takePair_eq_some_iff.mp (roundSliced?_eq_some_iff.mp hround)).1
    obtain ⟨hsize, hhead, hlast, hlone⟩ := quoted_of_isProper hproper
    exact ⟨hsize, hhead, hlast, Literal.unquoteSliced?_eq_none_iff.not.mpr hlone⟩
  shortens _ _ := size_lt_of_roundSliced?

theorem safelyRead (literal : String) : SafelyRead literal where
  fails := by
    constructor
    · intro hnone
      by_contra hlone
      rw [readSliced?_of_not_isLone hlone] at hnone
      cases hnone
    · exact readSliced?_of_isLone
  succeeds := readSliced?_of_not_isLone
  reasons tags hread bad hbad raw := by
    unfold read at hread
    split at hread
    case h_1 => cases hread
    case h_2 value _ =>
      cases hread
      rw [(says_ofPairs _).malformed] at hbad
      exact reason_ne_loneCharacter hbad raw

/-- Only a lone character is more than reading by offsets can take: a literal is read otherwise, and
so is each round over the text of a tag, and the tag as a whole. -/
theorem sliced_safely :
    (∀ literal, Literal.SafelySliced literal) ∧ (∀ rest, SafeRound rest) ∧
      ∀ literal, SafelyRead literal :=
  ⟨Literal.safelySliced, safeRound, safelyRead⟩

end Tags

end GoAtlas
