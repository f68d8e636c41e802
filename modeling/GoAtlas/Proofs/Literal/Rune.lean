import GoAtlas.Proofs.Literal
import GoAtlas.Proofs.Text.Beginnings

/-!
# Which runes are read

Between its quotes a rune holds one element.  Reading tests something else: that the bytes which
the elements denote are read as one character.  Each element denotes a whole character or, if it
is an escape for a byte, that byte (`Element.byteEscape_or_char`).  So a body of several elements
passes the test exactly if they are escapes for the first bytes of one character
(`singleElement_or_splitBody`): the bytes are joined before they are counted, and what encodes
nothing counts as one character.

A text that begins with a single quote is therefore read if it is a rune, and also if it spells a
character, or the beginning of one, byte by byte (`unquote_rune_exact`).  The latter is never a
rune (`IsSplit.not_isRune`).
-/

namespace GoAtlas.Literal

/-! ## Runes, and texts that are taken for runes -/

/-- A text is a rune: one element between single quotes. -/
def IsRune (text : List Char) : Prop :=
  ∃ body bytes, text = '\'' :: (body ++ ['\'']) ∧ Element '\'' body bytes

/-- An escape for a byte, and the byte. -/
inductive ByteEscape : List Char → UInt8 → Prop where
  | hex {digits : List Char} {values : List Nat} : digits.length = 2 →
      List.Forall₂ IsHexDigit digits values →
      ByteEscape ('\\' :: 'x' :: digits) (UInt8.ofNat (number 16 values))
  | octal {digits : List Char} {values : List Nat} : digits.length = 3 →
      List.Forall₂ IsOctalDigit digits values → number 8 values ≤ 255 →
      ByteEscape ('\\' :: digits) (UInt8.ofNat (number 8 values))

/-- Several escapes for bytes that a character begins with. -/
def SplitBody (body : List Char) : Prop :=
  ∃ (escapes : List (List Char × UInt8)) (c : Char), 2 ≤ escapes.length ∧
    (∀ escape ∈ escapes, ByteEscape escape.1 escape.2) ∧
    body = escapes.flatMap Prod.fst ∧ escapes.map Prod.snd <+: String.utf8EncodeChar c

/-- Between single quotes a text spells the bytes that a character begins with, each with an
escape of its own. -/
def IsSplit (text : List Char) : Prop :=
  ∃ body, text = '\'' :: (body ++ ['\'']) ∧ SplitBody body

variable {quote : Char} {front body text : List Char} {bytes : List UInt8} {byte : UInt8}
  {escapes : List (List Char × UInt8)} {literal : String}

/-! ## What an element denotes -/

theorem ByteEscape.element (hescape : ByteEscape front byte) : Element quote front [byte] := by
  cases hescape with
  | hex hlength hdigits => exact .hex hlength hdigits
  | octal hlength hdigits hrange => exact .octal hlength hdigits hrange

/-- An element that is no escape for a byte denotes a whole character. -/
theorem Element.byteEscape_or_char (helement : Element quote front bytes) :
    (∃ byte, ByteEscape front byte ∧ bytes = [byte]) ∨ ∃ c, bytes = String.utf8EncodeChar c := by
  cases helement with
  | plain => exact .inr ⟨_, rfl⟩
  | @letter c byte hletter =>
      have hletters : ∀ entry ∈ letterEscapes,
          [entry.2] = String.utf8EncodeChar (Char.ofNat entry.2.toNat) := by decide
      exact .inr ⟨_, hletters (c, byte) hletter⟩
  | quote => exact .inr ⟨_, rfl⟩
  | hex hlength hdigits => exact .inl ⟨_, .hex hlength hdigits, rfl⟩
  | octal hlength hdigits hrange => exact .inl ⟨_, .octal hlength hdigits hrange, rfl⟩
  | codePoint => exact .inr ⟨_, rfl⟩

theorem Element.bytes_ne_nil (helement : Element quote front bytes) : bytes ≠ [] := by
  obtain ⟨byte, -, rfl⟩ | ⟨c, rfl⟩ := helement.byteEscape_or_char
  · exact List.cons_ne_nil _ _
  · exact String.utf8EncodeChar_ne_nil

/-- One element denotes one character, be it the replacement character. -/
theorem Element.length_decodeLossy (helement : Element quote front bytes) :
    (Utf8.decodeLossy bytes).length = 1 := by
  obtain ⟨byte, -, rfl⟩ | ⟨c, rfl⟩ := helement.byteEscape_or_char
  · rw [Utf8.decodeLossy_cons (Prod.eta _).symm, List.drop_nil, Utf8.decodeLossy.eq_1]
    rfl
  · have hread := (Utf8.written_utf8EncodeChar c).decodeLossy_append []
    rw [List.append_nil, Utf8.decodeLossy.eq_1] at hread
    rw [hread]
    rfl

/-! ## Sequences of escapes for bytes -/

theorem elements_of_byteEscapes (hescapes : ∀ escape ∈ escapes, ByteEscape escape.1 escape.2) :
    Elements quote (escapes.flatMap Prod.fst) (escapes.map Prod.snd) := by
  induction escapes with
  | nil => exact .nil
  | cons escape escapes ih =>
      obtain ⟨hescape, hmore⟩ := List.forall_mem_cons.mp hescapes
      exact .cons hescape.element (ih hmore)

/-- Elements that denote no byte which can begin a character are escapes for bytes. -/
theorem exists_byteEscapes (helements : Elements quote body bytes)
    (hbytes : ∀ byte ∈ bytes, ¬ byte.IsUTF8FirstByte) :
    ∃ escapes : List (List Char × UInt8), (∀ escape ∈ escapes, ByteEscape escape.1 escape.2) ∧
      body = escapes.flatMap Prod.fst ∧ bytes = escapes.map Prod.snd := by
  induction helements with
  | nil => exact ⟨[], fun _ hescape => absurd hescape List.not_mem_nil, rfl, rfl⟩
  | @cons front body bytes more helement _ ih =>
      obtain ⟨hfront, hmore⟩ := List.forall_mem_append.mp hbytes
      obtain ⟨escapes, hescapes, rfl, rfl⟩ := ih hmore
      obtain ⟨byte, hescape, rfl⟩ | ⟨c, rfl⟩ := helement.byteEscape_or_char
      · exact ⟨(front, byte) :: escapes, List.forall_mem_cons.mpr ⟨hescape, hescapes⟩, rfl, rfl⟩
      · have hpos : 0 < (String.utf8EncodeChar c).length :=
          List.length_pos_of_ne_nil String.utf8EncodeChar_ne_nil
        exact absurd UInt8.isUTF8FirstByte_getElem_zero_utf8EncodeChar
          (hfront _ (List.getElem_mem hpos))

/-- The bytes of a character after the first one begin no character. -/
theorem not_isUTF8FirstByte {first : UInt8} {rest : List UInt8} {c : Char}
    (hbegins : first :: rest <+: String.utf8EncodeChar c) :
    ∀ byte ∈ rest, ¬ byte.IsUTF8FirstByte := by
  intro byte hmem hfirst
  obtain ⟨i, hi, rfl⟩ := List.getElem_of_mem hmem
  have hlength : i + 1 < (first :: rest).length := Nat.succ_lt_succ hi
  have hbound := Nat.lt_of_lt_of_le hlength hbegins.length_le
  have hbyte : rest[i] = (String.utf8EncodeChar c)[i + 1] := hbegins.getElem hlength
  rw [hbyte, UInt8.isUTF8FirstByte_getElem_utf8EncodeChar] at hfirst
  cases hfirst

/-! ## Bodies that denote one character -/

theorem Elements.eq_nil (helements : Elements quote body []) : body = [] := by
  generalize hbytes : ([] : List UInt8) = bytes at helements
  cases helements with
  | nil => rfl
  | cons helement _ =>
      exact absurd (List.append_eq_nil_iff.mp hbytes.symm).1 helement.bytes_ne_nil

/-- If the elements of a body are read as one character together, then the body is one element, or
its elements are escapes for the first bytes of a character. -/
theorem singleElement_or_splitBody (helements : Elements quote body bytes)
    (hone : (Utf8.decodeLossy bytes).length = 1) :
    Element quote body bytes ∨ SplitBody body := by
  cases helements with
  | nil =>
      rw [Utf8.decodeLossy.eq_1] at hone
      cases hone
  | @cons front body bytes more helement hmore =>
      by_cases hsome : more = []
      · subst hsome
        rw [hmore.eq_nil, List.append_nil, List.append_nil]
        exact .inl helement
      right
      obtain ⟨byte, hescape, rfl⟩ | ⟨c, rfl⟩ := helement.byteEscape_or_char
      · obtain ⟨c, hbegins⟩ := (Utf8.length_decodeLossy_eq_one_iff hsome).mp hone
        obtain ⟨escapes, hescapes, rfl, rfl⟩ :=
          exists_byteEscapes hmore (not_isUTF8FirstByte hbegins)
        have hlength : 0 < escapes.length := by
          rwa [List.length_pos_iff, ne_eq, ← List.map_eq_nil_iff]
        exact ⟨(front, byte) :: escapes, c, Nat.succ_le_succ hlength,
          List.forall_mem_cons.mpr ⟨hescape, hescapes⟩, rfl, hbegins⟩
      · -- A whole character has been read before the other bytes.
        rw [(Utf8.written_utf8EncodeChar c).decodeLossy_append, List.length_cons,
          Nat.add_eq_right, List.length_eq_zero_iff, Utf8.decodeLossy_eq_nil_iff] at hone
        exact absurd hone hsome

theorem SplitBody.exists_elements (hsplit : SplitBody body) :
    ∃ bytes, Elements quote body bytes ∧ (Utf8.decodeLossy bytes).length = 1 := by
  obtain ⟨escapes, c, hlength, hescapes, rfl, hbegins⟩ := hsplit
  refine ⟨_, elements_of_byteEscapes hescapes, ?_⟩
  match escapes, hlength with
  | first :: second :: escapes, _ =>
      exact (Utf8.length_decodeLossy_eq_one_iff (List.cons_ne_nil _ _)).mpr ⟨c, hbegins⟩

/-- Where an element ends is decided by its characters. -/
theorem Element.eq_nil_of_append {more : List Char} {others : List UInt8}
    (hquote : quote ∈ ['"', '\'']) (helement : Element quote front bytes)
    (hlonger : Element quote (front ++ more) others) : more = [] := by
  obtain ⟨c, front, rfl⟩ := List.exists_cons_of_ne_nil helement.ne_nil
  rw [List.cons_append] at hlonger
  have hread := readElement_of_element hquote helement more
  have hread' := readElement_of_element hquote hlonger []
  rw [List.append_nil, hread] at hread'
  cases hread'
  rfl

/-- Several elements are never one. -/
theorem SplitBody.not_element (hquote : quote ∈ ['"', '\'']) (hsplit : SplitBody body) :
    ¬ Element quote body bytes := by
  intro helement
  obtain ⟨escapes, c, hlength, hescapes, rfl, -⟩ := hsplit
  match escapes, hlength with
  | first :: second :: escapes, _ =>
      have hfirst : Element quote _ _ := (hescapes first (by simp)).element
      have hsecond : Element quote _ _ := (hescapes second (by simp)).element
      rw [List.flatMap_cons] at helement
      have hrest := hfirst.eq_nil_of_append hquote helement
      rw [List.flatMap_cons, List.append_eq_nil_iff] at hrest
      exact hsecond.ne_nil hrest.1

/-! ## Which texts are read -/

theorem readQuoted_rune {value : List Char} : readQuoted '\'' body = .ok value ↔
    ∃ bytes, Elements '\'' body bytes ∧ value = Utf8.decodeLossy bytes ∧ value.length = 1 := by
  have hdecode : ∀ value, decode '\'' body = .ok value ↔
      ∃ bytes, Elements '\'' body bytes ∧ value = Utf8.decodeLossy bytes :=
    fun _ => decode_eq_ok_iff (by decide)
  constructor
  · intro hread
    rw [readQuoted, if_neg (by decide), if_neg (by decide), if_pos rfl] at hread
    split at hread
    case h_1 => cases hread
    case h_2 read hread' =>
      obtain ⟨bytes, helements, hbytes⟩ := (hdecode _).mp hread'
      split at hread
      case isTrue hone =>
        cases hread
        exact ⟨bytes, helements, hbytes, hone⟩
      case isFalse => cases hread
  · rintro ⟨bytes, helements, hbytes, hone⟩
    rw [readQuoted, if_neg (by decide), if_neg (by decide), if_pos rfl,
      (hdecode _).mpr ⟨bytes, helements, hbytes⟩]
    exact if_pos hone

theorem unquote_rune_eq_ok_iff (hquote : literal.toList.head? = some '\'') {value : String} :
    unquote literal = .ok value ↔ ∃ body bytes, literal.toList = '\'' :: (body ++ ['\'']) ∧
      Elements '\'' body bytes ∧ value.toList = Utf8.decodeLossy bytes ∧
      value.toList.length = 1 := by
  rw [unquote_eq_ok_iff, read_eq_ok_iff]
  constructor
  · rintro ⟨quote, body, hliteral, hread⟩
    rw [hliteral, List.head?_cons, Option.some.injEq] at hquote
    subst hquote
    obtain ⟨bytes, helements, hvalue, hone⟩ := readQuoted_rune.mp hread
    exact ⟨body, bytes, hliteral, helements, hvalue, hone⟩
  · rintro ⟨body, bytes, hliteral, helements, hvalue, hone⟩
    exact ⟨'\'', body, hliteral, readQuoted_rune.mpr ⟨bytes, helements, hvalue, hone⟩⟩

theorem exists_unquote_of_body (hliteral : literal.toList = '\'' :: (body ++ ['\'']))
    (helements : Elements '\'' body bytes) (hone : (Utf8.decodeLossy bytes).length = 1) :
    ∃ value, unquote literal = .ok value := by
  have hquote : literal.toList.head? = some '\'' := by rw [hliteral, List.head?_cons]
  refine ⟨String.ofList (Utf8.decodeLossy bytes), (unquote_rune_eq_ok_iff hquote).mpr
    ⟨body, bytes, hliteral, helements, ?_⟩⟩
  rw [String.toList_ofList]
  exact ⟨rfl, hone⟩

theorem exists_unquote_of_isRune (hrune : IsRune literal.toList) :
    ∃ value, unquote literal = .ok value := by
  obtain ⟨body, bytes, hliteral, helement⟩ := hrune
  have helements : Elements '\'' body bytes := by
    simpa only [List.append_nil] using Elements.cons helement .nil
  exact exists_unquote_of_body hliteral helements helement.length_decodeLossy

theorem exists_unquote_of_isSplit (hsplit : IsSplit literal.toList) :
    ∃ value, unquote literal = .ok value := by
  obtain ⟨body, hliteral, hsplit⟩ := hsplit
  obtain ⟨bytes, helements, hone⟩ := hsplit.exists_elements
  exact exists_unquote_of_body hliteral helements hone

/-- No rune spells a character byte by byte. -/
theorem IsSplit.not_isRune (hsplit : IsSplit text) : ¬ IsRune text := by
  rintro ⟨body, bytes, htext, helement⟩
  obtain ⟨body', htext', hsplit⟩ := hsplit
  rw [htext, List.cons.injEq, List.append_cancel_right_eq] at htext'
  obtain ⟨-, rfl⟩ := htext'
  exact hsplit.not_element (by decide) helement

/-- What reading a text in single quotes comes to. -/
structure RuneExactly (literal : String) : Prop where
  /-- It is read if and only if it is a rune or spells, byte by byte, what a character begins
  with. -/
  accepted : (∃ value, unquote literal = .ok value) ↔
    IsRune literal.toList ∨ IsSplit literal.toList
  /-- It cannot be both. -/
  apart : ¬ (IsRune literal.toList ∧ IsSplit literal.toList)
  /-- The value is one character. -/
  single : ∀ value, unquote literal = .ok value → ∃ c, value.toList = [c]

/-- A text that begins with a single quote is read if it is a rune, and besides only if it joins
bytes to what a character begins with. -/
theorem unquote_rune_exact (hquote : literal.toList.head? = some '\'') : RuneExactly literal := by
  constructor
  · constructor
    · rintro ⟨value, hread⟩
      obtain ⟨body, bytes, hliteral, helements, hvalue, hone⟩ :=
        (unquote_rune_eq_ok_iff hquote).mp hread
      rw [hvalue] at hone
      rcases singleElement_or_splitBody helements hone with helement | hsplit
      · exact .inl ⟨body, bytes, hliteral, helement⟩
      · exact .inr ⟨body, hliteral, hsplit⟩
    · rintro (hrune | hsplit)
      · exact exists_unquote_of_isRune hrune
      · exact exists_unquote_of_isSplit hsplit
  · rintro ⟨hrune, hsplit⟩
    exact hsplit.not_isRune hrune
  · intro value hread
    obtain ⟨_, _, -, -, -, hone⟩ := (unquote_rune_eq_ok_iff hquote).mp hread
    exact List.length_eq_one_iff.mp hone

/-- A single quote, which has to be escaped between its like. -/
theorem unquote_rune_exact_quote :
    "'\\''".toList.head? = some '\'' ∧ RuneExactly "'\\''" := by
  have hquote : "'\\''".toList.head? = some '\'' := by decide +kernel
  exact ⟨hquote, unquote_rune_exact hquote⟩

/-- The two bytes of a character, each with an escape of its own. -/
def splitLetter : String := "'\\xC3\\xA9'"

theorem isSplit_splitLetter : IsSplit splitLetter.toList := by
  have hfirst : ByteEscape ['\\', 'x', 'C', '3'] (UInt8.ofNat (number 16 [12, 3])) :=
    .hex rfl (.cons (by decide) (.cons (by decide) .nil))
  have hsecond : ByteEscape ['\\', 'x', 'A', '9'] (UInt8.ofNat (number 16 [10, 9])) :=
    .hex rfl (.cons (by decide) (.cons (by decide) .nil))
  refine ⟨['\\', 'x', 'C', '3', '\\', 'x', 'A', '9'], by decide +kernel,
    [(['\\', 'x', 'C', '3'], 0xC3), (['\\', 'x', 'A', '9'], 0xA9)], 'é', by decide, ?_, rfl,
    by decide⟩
  rw [List.forall_mem_cons, List.forall_mem_singleton]
  exact ⟨hfirst, hsecond⟩

/-- Two elements are read as one character. -/
theorem splitLetter_read :
    (∃ value, unquote splitLetter = .ok value) ∧ ¬ IsRune splitLetter.toList :=
  ⟨exists_unquote_of_isSplit isSplit_splitLetter, isSplit_splitLetter.not_isRune⟩

end GoAtlas.Literal
