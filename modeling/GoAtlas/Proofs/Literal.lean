import GoAtlas.Literal
import GoAtlas.Proofs.Text.Splitting
import GoAtlas.Proofs.Text.Utf8
import Mathlib.Data.Nat.Digits.Lemmas
import Mathlib.Tactic.Ring

/-!
# What quoted literals denote

The grammar of interpreted strings and runes is given by `Element`: a character that stands for
itself, or one of the escapes, each with the bytes that it denotes.  A body is read exactly when
it is a sequence of elements, and then it denotes their bytes one after another
(`readBody_eq_ok_iff`).  So a string literal is read exactly when it is one (`unquote_exact`).

Reading looks for the closing quote at the end of the text only.  That is enough because the
quote is no element, so it cannot stand in the body.

What is not read is refused with a cause (`unquote_refused`).  The exception is a text of one
character beyond ASCII, which is taken to open and to close itself (`IsLone`).
-/

namespace GoAtlas.Literal

/-! ## The grammar -/

/-- A hexadecimal digit and its value. -/
def IsHexDigit (c : Char) (value : Nat) : Prop :=
  "0123456789abcdef".toList[value]? = some c ∨ "0123456789ABCDEF".toList[value]? = some c

/-- An octal digit and its value. -/
def IsOctalDigit (c : Char) (value : Nat) : Prop := "01234567".toList[value]? = some c

/-- The number written by digits with the given values, the first one counting most. -/
def number (base : Nat) (values : List Nat) : Nat := Nat.ofDigits base values.reverse

/-- The escapes of one letter with the bytes that they denote. -/
def letterEscapes : List (Char × UInt8) :=
  [('a', 0x07), ('b', 0x08), ('f', 0x0C), ('n', 0x0A), ('r', 0x0D), ('t', 0x09), ('v', 0x0B),
    ('\\', 0x5C)]

/-- The escapes by the number of a code point with their numbers of hexadecimal digits. -/
def codePointEscapes : List (Char × Nat) := [('u', 4), ('U', 8)]

/-- One element of a literal with the given quote, and the bytes that it denotes. -/
inductive Element (quote : Char) : List Char → List UInt8 → Prop where
  | plain {c : Char} : c ≠ '\n' → c ≠ quote → c ≠ '\\' →
      Element quote [c] (String.utf8EncodeChar c)
  | letter {c : Char} {byte : UInt8} : (c, byte) ∈ letterEscapes → Element quote ['\\', c] [byte]
  | quote : Element quote ['\\', quote] (String.utf8EncodeChar quote)
  | hex {digits : List Char} {values : List Nat} : digits.length = 2 →
      List.Forall₂ IsHexDigit digits values →
      Element quote ('\\' :: 'x' :: digits) [UInt8.ofNat (number 16 values)]
  | octal {digits : List Char} {values : List Nat} : digits.length = 3 →
      List.Forall₂ IsOctalDigit digits values → number 8 values ≤ 255 →
      Element quote ('\\' :: digits) [UInt8.ofNat (number 8 values)]
  | codePoint {mark : Char} {count : Nat} {digits : List Char} {values : List Nat} :
      (mark, count) ∈ codePointEscapes → digits.length = count →
      List.Forall₂ IsHexDigit digits values → (number 16 values).isValidChar →
      Element quote ('\\' :: mark :: digits)
        (String.utf8EncodeChar (Char.ofNat (number 16 values)))

/-- A sequence of elements, and the bytes that it denotes. -/
inductive Elements (quote : Char) : List Char → List UInt8 → Prop where
  | nil : Elements quote [] []
  | cons {front body : List Char} {bytes more : List UInt8} : Element quote front bytes →
      Elements quote body more → Elements quote (front ++ body) (bytes ++ more)

/-- A string literal, and the text that it denotes. -/
inductive Denotes : List Char → List Char → Prop where
  | interpreted {body : List Char} {bytes : List UInt8} : Elements '"' body bytes →
      Denotes ('"' :: (body ++ ['"'])) (Utf8.decodeLossy bytes)
  | raw {body : List Char} : '`' ∉ body →
      Denotes ('`' :: (body ++ ['`'])) (body.filter (· != '\r'))

variable {quote c : Char} {text rest digits body : List Char} {bytes : List UInt8}
  {values : List Nat} {count value base n : Nat} {literal : String}

/-! ## Digits -/

instance : Decidable (IsHexDigit c value) := inferInstanceAs (Decidable (_ ∨ _))

instance : Decidable (IsOctalDigit c value) := inferInstanceAs (Decidable (_ = _))

/-- No digit comes after the letter `f`. -/
theorem toNat_le_of_hexDigit? (hdigit : hexDigit? c = some value) : c.toNat ≤ 'f'.toNat := by
  have hle : ∀ {d : Char}, c ≤ d → d.toNat ≤ 'f'.toNat → c.toNat ≤ 'f'.toNat := fun hcd hd =>
    Nat.le_trans (UInt32.le_iff_toNat_le.mp (Char.le_def.mp hcd)) hd
  unfold hexDigit? at hdigit
  split at hdigit
  case isTrue hc => exact hle hc.2 (by decide)
  split at hdigit
  case isTrue hc => exact hle hc.2 (by decide)
  split at hdigit
  case isTrue hc => exact hle hc.2 (by decide)
  case isFalse => cases hdigit

theorem toNat_le_of_octalDigit? (hdigit : octalDigit? c = some value) : c.toNat ≤ '7'.toNat := by
  unfold octalDigit? at hdigit
  split at hdigit
  case isTrue hc => exact UInt32.le_iff_toNat_le.mp (Char.le_def.mp hc.2)
  case isFalse => cases hdigit

theorem hexDigit?_eq_some_iff : hexDigit? c = some value ↔ IsHexDigit c value := by
  have hletters : ∀ n < 103, ∀ d ∈ hexDigit? (Char.ofNat n), IsHexDigit (Char.ofNat n) d := by
    decide
  have hvalues : ∀ d < 16, (∀ c ∈ "0123456789abcdef".toList[d]?, hexDigit? c = some d) ∧
      ∀ c ∈ "0123456789ABCDEF".toList[d]?, hexDigit? c = some d := by
    decide
  constructor
  · intro hdigit
    have hletter := hletters c.toNat (Nat.lt_succ_of_le (toNat_le_of_hexDigit? hdigit))
    rw [Char.ofNat_toNat] at hletter
    exact hletter value hdigit
  · rintro (hdigit | hdigit)
    · obtain ⟨hvalue, -⟩ := List.getElem?_eq_some_iff.mp hdigit
      exact (hvalues value hvalue).1 c hdigit
    · obtain ⟨hvalue, -⟩ := List.getElem?_eq_some_iff.mp hdigit
      exact (hvalues value hvalue).2 c hdigit

theorem octalDigit?_eq_some_iff : octalDigit? c = some value ↔ IsOctalDigit c value := by
  have hletters : ∀ n < 56, ∀ d ∈ octalDigit? (Char.ofNat n), IsOctalDigit (Char.ofNat n) d := by
    decide
  have hvalues : ∀ d < 8, ∀ c ∈ "01234567".toList[d]?, octalDigit? c = some d := by
    decide
  constructor
  · intro hdigit
    have hletter := hletters c.toNat (Nat.lt_succ_of_le (toNat_le_of_octalDigit? hdigit))
    rw [Char.ofNat_toNat] at hletter
    exact hletter value hdigit
  · intro hdigit
    obtain ⟨hvalue, -⟩ := List.getElem?_eq_some_iff.mp hdigit
    exact hvalues value hvalue c hdigit

theorem number_eq (base : Nat) (values : List Nat) :
    number base values = values.foldl (fun n d => n * base + d) 0 := by
  rw [number, Nat.ofDigits_eq_foldr, List.foldr_reverse]
  congr 1
  funext n d
  simp only [Nat.cast_id]
  ring

/-- Digits are taken exactly when as many of them stand at the beginning of the text. -/
theorem takeDigits_eq_some_iff {digit? : Char → Option Nat} {IsDigit : Char → Nat → Prop}
    (hdigit? : ∀ c d, digit? c = some d ↔ IsDigit c d) :
    takeDigits digit? base count value text = some (n, rest) ↔
      ∃ digits values, text = digits ++ rest ∧ digits.length = count ∧
        List.Forall₂ IsDigit digits values ∧ n = values.foldl (fun n d => n * base + d) value := by
  induction count generalizing value text with
  | zero =>
      rw [takeDigits]
      constructor
      · intro hread
        cases hread
        exact ⟨[], [], rfl, rfl, .nil, rfl⟩
      · rintro ⟨digits, values, rfl, hlength, hdigits, rfl⟩
        cases List.length_eq_zero_iff.mp hlength
        cases hdigits
        rfl
  | succ count ih =>
      constructor
      · intro hread
        cases text with
        | nil => cases hread
        | cons c text =>
            rw [takeDigits] at hread
            split at hread
            case h_1 d hd =>
              obtain ⟨digits, values, rfl, hlength, hdigits, rfl⟩ := ih.mp hread
              exact ⟨c :: digits, d :: values, rfl, congrArg Nat.succ hlength,
                .cons ((hdigit? c d).mp hd) hdigits, rfl⟩
            case h_2 => cases hread
      · rintro ⟨digits, values, rfl, hlength, hdigits, rfl⟩
        cases hdigits with
        | nil => cases hlength
        | @cons c d digits values hd hdigits =>
            have hmore := ih.mpr ⟨digits, values, rfl, Nat.succ.inj hlength, hdigits, rfl⟩
            rw [List.cons_append, takeDigits, (hdigit? c d).mpr hd]
            exact hmore

theorem takeHex_eq_some_iff : takeDigits hexDigit? 16 count 0 text = some (n, rest) ↔
    ∃ digits values, text = digits ++ rest ∧ digits.length = count ∧
      List.Forall₂ IsHexDigit digits values ∧ n = number 16 values := by
  rw [takeDigits_eq_some_iff fun _ _ => hexDigit?_eq_some_iff]
  simp only [number_eq]

/-- The first of the octal digits has been taken before the others. -/
theorem takeOctal_eq_some_iff {first : Nat} (hfirst : octalDigit? c = some first) :
    takeDigits octalDigit? 8 count first text = some (n, rest) ↔
      ∃ digits values, c :: text = digits ++ rest ∧ digits.length = count + 1 ∧
        List.Forall₂ IsOctalDigit digits values ∧ n = number 8 values := by
  have hdigit? : ∀ c d, octalDigit? c = some d ↔ IsOctalDigit c d :=
    fun _ _ => octalDigit?_eq_some_iff
  have hshift : takeDigits octalDigit? 8 (count + 1) 0 (c :: text) =
      takeDigits octalDigit? 8 count first text := by
    rw [takeDigits, hfirst]
    simp only [Nat.zero_mul, Nat.zero_add]
  rw [← hshift, takeDigits_eq_some_iff hdigit?]
  simp only [number_eq]

/-! ## Numbers stay small -/

/-- The numbers that come up while a numeric escape is read, where the text is what follows its
backslash: the value of its first digits, and the value after each further one. -/
inductive Accumulates : List Char → Nat → Prop where
  | hex {mark : Char} {count steps n : Nat} {text rest : List Char} :
      (mark, count) ∈ ('x', 2) :: codePointEscapes → steps ≤ count →
      takeDigits hexDigit? 16 steps 0 text = some (n, rest) → Accumulates (mark :: text) n
  | octal {c : Char} {first steps n : Nat} {text rest : List Char} :
      octalDigit? c = some first → steps ≤ 2 →
      takeDigits octalDigit? 8 steps first text = some (n, rest) → Accumulates (c :: text) n

theorem IsHexDigit.lt (hdigit : IsHexDigit c value) : value < 16 := by
  rcases hdigit with hdigit | hdigit
  · exact (List.getElem?_eq_some_iff.mp hdigit).1
  · exact (List.getElem?_eq_some_iff.mp hdigit).1

theorem IsOctalDigit.lt (hdigit : IsOctalDigit c value) : value < 8 :=
  (List.getElem?_eq_some_iff.mp hdigit).1

/-- As many digits as there are bound the number that they write. -/
theorem number_lt {IsDigit : Char → Nat → Prop} (hbase : 1 < base)
    (hbound : ∀ c d, IsDigit c d → d < base) (hdigits : List.Forall₂ IsDigit digits values) :
    number base values < base ^ digits.length := by
  have hvalues : ∀ d ∈ values, d < base := by
    induction hdigits with
    | nil => exact fun _ hd => absurd hd List.not_mem_nil
    | cons hd _ ih => exact List.forall_mem_cons.mpr ⟨hbound _ _ hd, ih⟩
  have hlt : number base values < base ^ values.reverse.length :=
    Nat.ofDigits_lt_base_pow_length hbase fun d hd => hvalues d (List.mem_reverse.mp hd)
  rwa [List.length_reverse, ← hdigits.length_eq] at hlt

/-- Eight hexadecimal digits fit into 32 bits, and no escape has more of them. -/
theorem Accumulates.lt (hnumber : Accumulates text n) : n < 2 ^ 32 := by
  cases hnumber with
  | @hex mark count steps _ _ rest hescape hsteps htake =>
      have hcount : ∀ entry ∈ ('x', 2) :: codePointEscapes, entry.2 ≤ 8 := by decide
      have hsteps : steps ≤ 8 := Nat.le_trans hsteps (hcount _ hescape)
      obtain ⟨digits, values, -, rfl, hdigits, rfl⟩ := takeHex_eq_some_iff.mp htake
      calc number 16 values
          < 16 ^ digits.length := number_lt (by decide) (fun _ _ => IsHexDigit.lt) hdigits
        _ ≤ 16 ^ 8 := Nat.pow_le_pow_right (by decide) hsteps
        _ = 2 ^ 32 := by norm_num
  | @octal c first steps _ _ rest hfirst hsteps htake =>
      obtain ⟨digits, values, -, hlength, hdigits, rfl⟩ := (takeOctal_eq_some_iff hfirst).mp htake
      calc number 8 values
          < 8 ^ digits.length := number_lt (by decide) (fun _ _ => IsOctalDigit.lt) hdigits
        _ ≤ 8 ^ 3 := Nat.pow_le_pow_right (by decide) (by omega)
        _ ≤ 2 ^ 32 := by norm_num

/-! ## Escapes -/

theorem letterEscape?_eq_some_iff {byte : UInt8} :
    letterEscape? c = some byte ↔ (c, byte) ∈ letterEscapes := by
  have hentries : ∀ entry ∈ letterEscapes, letterEscape? entry.1 = some entry.2 := by decide
  constructor
  · intro hletter
    unfold letterEscape? at hletter
    split at hletter <;> cases hletter <;> decide
  · exact hentries (c, byte)

theorem readCodePoint_eq_ok_iff : readCodePoint count text = .ok (bytes, rest) ↔
    ∃ digits values, text = digits ++ rest ∧ digits.length = count ∧
      List.Forall₂ IsHexDigit digits values ∧ (number 16 values).isValidChar ∧
      bytes = String.utf8EncodeChar (Char.ofNat (number 16 values)) := by
  constructor
  · intro hread
    unfold readCodePoint at hread
    split at hread
    case h_1 => cases hread
    case h_2 code rest' htake =>
      obtain ⟨digits, values, rfl, hlength, hdigits, rfl⟩ := takeHex_eq_some_iff.mp htake
      unfold scalar? at hread
      split at hread
      case h_1 => cases hread
      case h_2 c hscalar =>
        split at hscalar
        case isTrue hvalid =>
          cases hscalar
          cases hread
          exact ⟨digits, values, rfl, hlength, hdigits, hvalid, rfl⟩
        case isFalse => cases hscalar
  · rintro ⟨digits, values, rfl, hlength, hdigits, hvalid, rfl⟩
    have htake : takeDigits hexDigit? 16 count 0 (digits ++ rest) =
        some (number 16 values, rest) :=
      takeHex_eq_some_iff.mpr ⟨digits, values, rfl, hlength, hdigits, rfl⟩
    unfold readCodePoint
    rw [htake]
    simp only [scalar?, if_pos hvalid]

/-- What is read after a backslash is an element with it. -/
theorem element_of_readEscape (hread : readEscape quote text = .ok (bytes, rest)) :
    ∃ front, text = front ++ rest ∧ Element quote ('\\' :: front) bytes := by
  cases text with
  | nil => cases hread
  | cons c text =>
      rw [readEscape] at hread
      split at hread
      case h_1 byte hletter =>
        cases hread
        exact ⟨[c], rfl, .letter (letterEscape?_eq_some_iff.mp hletter)⟩
      case h_2 =>
        split at hread
        case isTrue hquote =>
          cases hread
          subst hquote
          exact ⟨[c], rfl, .quote⟩
        split at hread
        case isTrue hmark =>
          subst hmark
          split at hread
          case h_1 => cases hread
          case h_2 value rest' htake =>
            cases hread
            obtain ⟨digits, values, rfl, hlength, hdigits, rfl⟩ := takeHex_eq_some_iff.mp htake
            exact ⟨'x' :: digits, rfl, .hex hlength hdigits⟩
        split at hread
        case isTrue hmark =>
          subst hmark
          obtain ⟨digits, values, rfl, hlength, hdigits, hvalid, rfl⟩ :=
            readCodePoint_eq_ok_iff.mp hread
          exact ⟨'u' :: digits, rfl, .codePoint (by decide) hlength hdigits hvalid⟩
        split at hread
        case isTrue hmark =>
          subst hmark
          obtain ⟨digits, values, rfl, hlength, hdigits, hvalid, rfl⟩ :=
            readCodePoint_eq_ok_iff.mp hread
          exact ⟨'U' :: digits, rfl, .codePoint (by decide) hlength hdigits hvalid⟩
        split at hread
        case h_1 => cases hread
        case h_2 first hfirst =>
          split at hread
          case h_1 => cases hread
          case h_2 value rest' htake =>
            split at hread
            case isTrue => cases hread
            case isFalse hrange =>
              cases hread
              obtain ⟨digits, values, htext, hlength, hdigits, rfl⟩ :=
                (takeOctal_eq_some_iff hfirst).mp htake
              exact ⟨digits, htext, .octal hlength hdigits (Nat.le_of_not_lt hrange)⟩

/-- No octal digit begins another escape. -/
theorem octalDigit_apart {value : Nat} (hdigit : IsOctalDigit c value) :
    letterEscape? c = none ∧ c ∉ ['"', '\'', 'x', 'u', 'U'] := by
  have hdigits : ∀ d < 8, ∀ c ∈ "01234567".toList[d]?,
      letterEscape? c = none ∧ c ∉ ['"', '\'', 'x', 'u', 'U'] := by
    decide
  obtain ⟨hvalue, -⟩ := List.getElem?_eq_some_iff.mp hdigit
  exact hdigits value hvalue c hdigit

theorem readEscape_of_element (hquote : quote ∈ ['"', '\'']) {front : List Char}
    (helement : Element quote ('\\' :: front) bytes) (rest : List Char) :
    readEscape quote (front ++ rest) = .ok (bytes, rest) := by
  have hnone : letterEscape? quote = none := by
    have hquotes : ∀ quote ∈ ['"', '\''], letterEscape? quote = none := by decide
    exact hquotes quote hquote
  have hmark : ∀ mark ∈ ['x', 'u', 'U'], letterEscape? mark = none ∧ mark ≠ quote := by
    have hmarks : ∀ quote ∈ ['"', '\''], ∀ mark ∈ ['x', 'u', 'U'],
        letterEscape? mark = none ∧ mark ≠ quote := by decide
    exact hmarks quote hquote
  cases helement with
  | plain _ _ hc => exact absurd rfl hc
  | letter hletter =>
      rw [List.singleton_append, readEscape, letterEscape?_eq_some_iff.mpr hletter]
  | quote =>
      rw [List.singleton_append, readEscape, hnone]
      simp only [if_true]
  | @hex digits values hlength hdigits =>
      have htake : takeDigits hexDigit? 16 2 0 (digits ++ rest) = some (number 16 values, rest) :=
        takeHex_eq_some_iff.mpr ⟨digits, values, rfl, hlength, hdigits, rfl⟩
      obtain ⟨hletter, hne⟩ := hmark 'x' (by decide)
      rw [List.cons_append, readEscape, hletter]
      simp only [hne, if_false, if_true, htake, Nat.toUInt8]
  | @codePoint mark count digits values hescape hlength hdigits hvalid =>
      have hread : readCodePoint count (digits ++ rest) =
          .ok (String.utf8EncodeChar (Char.ofNat (number 16 values)), rest) :=
        readCodePoint_eq_ok_iff.mpr ⟨digits, values, rfl, hlength, hdigits, hvalid, rfl⟩
      simp only [codePointEscapes, List.mem_cons, Prod.mk.injEq, List.not_mem_nil,
        or_false] at hescape
      rcases hescape with ⟨rfl, rfl⟩ | ⟨rfl, rfl⟩
      · obtain ⟨hletter, hne⟩ := hmark 'u' (by decide)
        rw [List.cons_append, readEscape, hletter]
        simp [hne, hread]
      · obtain ⟨hletter, hne⟩ := hmark 'U' (by decide)
        rw [List.cons_append, readEscape, hletter]
        simp [hne, hread]
  | @octal _ values hlength hdigits hrange =>
      cases hdigits with
      | nil => cases hlength
      | @cons c first digits values hfirst hmore =>
          obtain ⟨hletter, hapart⟩ := octalDigit_apart hfirst
          have hne : c ≠ quote := by
            rintro rfl
            exact hapart (List.mem_append_left ['x', 'u', 'U'] hquote)
          have hdigit := octalDigit?_eq_some_iff.mpr hfirst
          have htake : takeDigits octalDigit? 8 2 first (digits ++ rest) =
              some (number 8 (first :: values), rest) :=
            (takeOctal_eq_some_iff hdigit).mpr
              ⟨c :: digits, first :: values, rfl, hlength, .cons hfirst hmore, rfl⟩
          simp only [List.mem_cons, List.not_mem_nil, or_false, not_or] at hapart
          rw [List.cons_append, readEscape, hletter]
          simp only [hne, hapart, if_false, hdigit, htake, Nat.not_lt.mpr hrange, Nat.toUInt8]

/-! ## Bodies -/

/-- What is read as an element is one. -/
theorem element_of_readElement (hread : readElement quote c text = .ok (bytes, rest)) :
    ∃ front, text = front ++ rest ∧ Element quote (c :: front) bytes := by
  unfold readElement at hread
  split at hread
  case isTrue hbackslash =>
    subst hbackslash
    exact element_of_readEscape hread
  case isFalse hbackslash =>
    split at hread
    case isTrue => cases hread
    case isFalse hbreak =>
      split at hread
      case isTrue => cases hread
      case isFalse hquote =>
        cases hread
        exact ⟨[], rfl, .plain hbreak hquote hbackslash⟩

theorem readElement_of_element (hquote : quote ∈ ['"', '\'']) {front : List Char}
    (helement : Element quote (c :: front) bytes) (rest : List Char) :
    readElement quote c (front ++ rest) = .ok (bytes, rest) := by
  unfold readElement
  split
  case isTrue hbackslash =>
    subst hbackslash
    exact readEscape_of_element hquote helement rest
  case isFalse hbackslash =>
    cases helement with
    | plain hbreak hplain _ => rw [if_neg hbreak, if_neg hplain, List.nil_append]
    | _ => exact absurd rfl hbackslash

theorem Element.ne_nil {front : List Char} (helement : Element quote front bytes) :
    front ≠ [] := by
  cases helement <;> exact List.cons_ne_nil _ _

theorem readBody_of_error {fault : LiteralFault}
    (helement : readElement quote c text = .error fault) :
    readBody quote (c :: text) = .error fault := by
  rw [readBody]
  split
  case h_1 heq =>
    rw [helement] at heq
    cases heq
    rfl
  case h_2 heq =>
    rw [helement] at heq
    cases heq

theorem readBody_of_ok (helement : readElement quote c text = .ok (bytes, rest)) :
    readBody quote (c :: text) = (readBody quote rest).map (bytes ++ ·) := by
  rw [readBody]
  split
  case h_1 heq =>
    rw [helement] at heq
    cases heq
  case h_2 heq =>
    rw [helement] at heq
    cases heq
    cases readBody quote rest <;> rfl

theorem elements_of_readBody (hread : readBody quote text = .ok bytes) :
    Elements quote text bytes := by
  induction text using readBody.induct quote generalizing bytes with
  | case1 =>
      rw [readBody] at hread
      cases hread
      exact .nil
  | case2 c text fault helement =>
      rw [readBody_of_error helement] at hread
      cases hread
  | case3 c text first rest helement fault hbody =>
      rw [readBody_of_ok helement, hbody] at hread
      cases hread
  | case4 c text first rest helement more hbody ih =>
      rw [readBody_of_ok helement, hbody] at hread
      cases hread
      obtain ⟨front, rfl, hfront⟩ := element_of_readElement helement
      exact .cons hfront (ih hbody)

/-- A body is read exactly when it is a sequence of elements. -/
theorem readBody_eq_ok_iff (hquote : quote ∈ ['"', '\'']) :
    readBody quote text = .ok bytes ↔ Elements quote text bytes := by
  constructor
  · exact elements_of_readBody
  · intro helements
    induction helements with
    | nil => rw [readBody]
    | @cons front body bytes more helement _ ih =>
        obtain ⟨c, front, rfl⟩ := List.exists_cons_of_ne_nil helement.ne_nil
        rw [List.cons_append, readBody_of_ok (readElement_of_element hquote helement body), ih]
        rfl

/-! ## Literals -/

/-- A literal is read between its first character and the same one at its end. -/
theorem read_eq_ok_iff {value : List Char} : read text = .ok value ↔
    ∃ quote body, text = quote :: (body ++ [quote]) ∧ readQuoted quote body = .ok value := by
  constructor
  · intro hread
    unfold read at hread
    split at hread
    case h_1 => cases hread
    case h_2 c => split at hread <;> cases hread
    case h_3 quote c rest =>
      split at hread
      case isTrue hlast =>
        refine ⟨quote, (c :: rest).dropLast, ?_, hread⟩
        rw [List.dropLast_append_getLast? quote hlast]
      case isFalse => cases hread
  · rintro ⟨quote, body, rfl, hbody⟩
    obtain ⟨c, rest, hrest⟩ : ∃ c rest, body ++ [quote] = c :: rest :=
      List.exists_cons_of_ne_nil (by simp)
    rw [hrest, read, ← hrest, List.getLast?_concat, if_pos rfl, List.dropLast_concat, hbody]

theorem decode_eq_ok_iff (hquote : quote ∈ ['"', '\'']) {value : List Char} :
    decode quote body = .ok value ↔
      ∃ bytes, Elements quote body bytes ∧ value = Utf8.decodeLossy bytes := by
  constructor
  · intro hdecode
    cases hbody : readBody quote body with
    | error fault =>
        rw [decode, hbody] at hdecode
        cases hdecode
    | ok bytes =>
        rw [decode, hbody] at hdecode
        cases hdecode
        exact ⟨bytes, elements_of_readBody hbody, rfl⟩
  · rintro ⟨bytes, helements, rfl⟩
    rw [decode, (readBody_eq_ok_iff hquote).mpr helements]
    rfl

/-- A text that begins with a double quote or a backquote is read exactly when it is a string
literal. -/
theorem read_eq_ok_iff_denotes {value : List Char}
    (hquote : text.head? = some '"' ∨ text.head? = some '`') :
    read text = .ok value ↔ Denotes text value := by
  rw [read_eq_ok_iff]
  constructor
  · rintro ⟨quote, body, rfl, hread⟩
    rw [List.head?_cons, Option.some.injEq, Option.some.injEq] at hquote
    rcases hquote with rfl | rfl
    · obtain ⟨bytes, helements, rfl⟩ := (decode_eq_ok_iff (by decide)).mp hread
      exact .interpreted helements
    · rw [readQuoted, if_pos rfl] at hread
      split at hread
      case isTrue => cases hread
      case isFalse hfree =>
        cases hread
        exact .raw hfree
  · intro hdenotes
    cases hdenotes with
    | @interpreted body bytes helements =>
        exact ⟨'"', body, rfl, (decode_eq_ok_iff (by decide)).mpr ⟨bytes, helements, rfl⟩⟩
    | @raw body hfree =>
        refine ⟨'`', body, rfl, ?_⟩
        rw [readQuoted, if_pos rfl, if_neg hfree]

theorem unquote_eq_ok_iff {value : String} :
    unquote literal = .ok value ↔ read literal.toList = .ok value.toList := by
  unfold unquote
  split
  case h_1 cause hread => simp [hread]
  case h_2 text hread =>
    rw [hread, Except.ok.injEq, Except.ok.injEq]
    constructor
    · rintro rfl
      rw [String.toList_ofList]
    · rintro rfl
      rw [String.ofList_toList]

/-! ## Failures -/

theorem readEscape_ne_loneCharacter : readEscape quote text ≠ .error .loneCharacter := by
  have hcode : ∀ count rest, readCodePoint count rest ≠ .error .loneCharacter := by
    intro count rest hread
    unfold readCodePoint at hread
    split at hread
    case h_1 => cases hread
    case h_2 => split at hread <;> cases hread
  intro hread
  cases text with
  | nil => cases hread
  | cons c text =>
      rw [readEscape] at hread
      split at hread
      case h_1 => cases hread
      case h_2 =>
        split at hread
        case isTrue => cases hread
        split at hread
        case isTrue => split at hread <;> cases hread
        split at hread
        case isTrue => exact hcode _ _ hread
        split at hread
        case isTrue => exact hcode _ _ hread
        split at hread
        case h_1 => cases hread
        case h_2 =>
          split at hread
          case h_1 => cases hread
          case h_2 => split at hread <;> cases hread

theorem readBody_ne_loneCharacter : readBody quote text ≠ .error .loneCharacter := by
  intro hread
  induction text using readBody.induct quote with
  | case1 =>
      rw [readBody] at hread
      cases hread
  | case2 c text fault helement =>
      rw [readBody_of_error helement] at hread
      cases hread
      rw [readElement] at helement
      split at helement
      case isTrue => exact readEscape_ne_loneCharacter helement
      split at helement
      case isTrue => cases helement
      case isFalse => split at helement <;> cases helement
  | case3 c text first rest helement fault hbody ih =>
      rw [readBody_of_ok helement, hbody] at hread
      cases hread
      exact ih hbody
  | case4 c text first rest helement more hbody =>
      rw [readBody_of_ok helement, hbody] at hread
      cases hread

theorem readQuoted_ne_loneCharacter : readQuoted quote body ≠ .error .loneCharacter := by
  have hdecode : ∀ quote, decode quote body ≠ .error .loneCharacter := by
    intro quote hread
    unfold decode at hread
    cases hbody : readBody quote body with
    | error fault =>
        rw [hbody] at hread
        cases hread
        exact readBody_ne_loneCharacter hbody
    | ok bytes =>
        rw [hbody] at hread
        cases hread
  intro hread
  unfold readQuoted at hread
  split at hread
  case isTrue => split at hread <;> cases hread
  split at hread
  case isTrue => exact hdecode _ hread
  split at hread
  case isTrue =>
    split at hread
    case h_1 fault hrune =>
      cases hread
      exact hdecode _ hrune
    case h_2 => split at hread <;> cases hread
  case isFalse => cases hread

/-- A text of one character, which is beyond ASCII. -/
def IsLone (text : List Char) : Prop := ∃ c, text = [c] ∧ 0x80 ≤ c.toNat

/-- Only one kind of text is taken to open and to close itself. -/
theorem read_eq_loneCharacter_iff : read text = .error .loneCharacter ↔ IsLone text := by
  constructor
  · intro hread
    unfold read at hread
    split at hread
    case h_1 => cases hread
    case h_2 c =>
      split at hread
      case isTrue => cases hread
      case isFalse hbeyond => exact ⟨c, rfl, Nat.le_of_not_lt hbeyond⟩
    case h_3 =>
      split at hread
      case isTrue => exact absurd hread readQuoted_ne_loneCharacter
      case isFalse => cases hread
  · rintro ⟨c, rfl, hbeyond⟩
    rw [read, if_neg (Nat.not_lt.mpr hbeyond)]

/-- A text that cannot be read is refused with a cause, unless it is a lone character. -/
theorem unquote_refused (hlone : ¬ IsLone literal.toList)
    (hrefused : ∀ value, unquote literal ≠ .ok value) :
    ∃ cause, cause ≠ .loneCharacter ∧ unquote literal = .error (.literal cause literal) := by
  cases hread : read literal.toList with
  | ok value =>
      have hvalue : unquote literal = .ok (String.ofList value) := by
        rw [unquote_eq_ok_iff, String.toList_ofList, hread]
      exact absurd hvalue (hrefused _)
  | error cause =>
      refine ⟨cause, ?_, by rw [unquote, hread]⟩
      rintro rfl
      exact hlone (read_eq_loneCharacter_iff.mp hread)

/-! ## String literals -/

theorem unquote_of_denotes {value : List Char} (hdenotes : Denotes literal.toList value) :
    unquote literal = .ok (String.ofList value) := by
  have hquote : literal.toList.head? = some '"' ∨ literal.toList.head? = some '`' := by
    generalize literal.toList = text at hdenotes
    cases hdenotes with
    | interpreted => exact .inl rfl
    | raw => exact .inr rfl
  rw [unquote_eq_ok_iff, String.toList_ofList]
  exact (read_eq_ok_iff_denotes hquote).mpr hdenotes

/-- A text is a string literal, interpreted or raw. -/
def IsString (text : List Char) : Prop :=
  (∃ body bytes, text = '"' :: (body ++ ['"']) ∧ Elements '"' body bytes) ∨
    ∃ body, text = '`' :: (body ++ ['`']) ∧ '`' ∉ body

theorem isString_iff : IsString text ↔ ∃ value, Denotes text value := by
  constructor
  · rintro (⟨body, bytes, rfl, helements⟩ | ⟨body, rfl, hfree⟩)
    · exact ⟨_, .interpreted helements⟩
    · exact ⟨_, .raw hfree⟩
  · rintro ⟨value, hdenotes⟩
    cases hdenotes with
    | @interpreted body bytes helements => exact .inl ⟨body, bytes, rfl, helements⟩
    | @raw body hfree => exact .inr ⟨body, rfl, hfree⟩

/-- What reading a string literal comes to. -/
structure ReadExactly (literal : String) : Prop where
  /-- It is read if and only if it is a string literal. -/
  accepted : (∃ value, unquote literal = .ok value) ↔ IsString literal.toList
  /-- The value is the text that it denotes. -/
  value : ∀ value, unquote literal = .ok value ↔ Denotes literal.toList value.toList
  /-- Where the bytes of an interpreted string encode a text, that text is the value. -/
  encoded : ∀ body text, literal.toList = '"' :: (body ++ ['"']) →
    Elements '"' body (Utf8.encode text) → unquote literal = .ok (String.ofList text)
  /-- Whatever stands behind a backslash, the numbers that are added up fit into 32 bits. -/
  bounded : ∀ before escape n, literal.toList = before ++ '\\' :: escape →
    Accumulates escape n → n < 2 ^ 32

/-- A text that begins with a double quote or a backquote is read as a string literal. -/
theorem unquote_exact
    (hquote : literal.toList.head? = some '"' ∨ literal.toList.head? = some '`') :
    ReadExactly literal := by
  have hvalue : ∀ value, unquote literal = .ok value ↔ Denotes literal.toList value.toList :=
    fun value => unquote_eq_ok_iff.trans (read_eq_ok_iff_denotes hquote)
  constructor
  · rw [isString_iff]
    constructor
    · rintro ⟨value, hread⟩
      exact ⟨value.toList, (hvalue value).mp hread⟩
    · rintro ⟨value, hdenotes⟩
      refine ⟨String.ofList value, (hvalue _).mpr ?_⟩
      rwa [String.toList_ofList]
  · exact hvalue
  · intro body text hliteral helements
    have hdenotes : Denotes literal.toList (Utf8.decodeLossy (Utf8.encode text)) := by
      rw [hliteral]
      exact .interpreted helements
    rw [Utf8.decodeLossy_encode] at hdenotes
    rw [hvalue, String.toList_ofList]
    exact hdenotes
  · exact fun _ _ _ _ hnumber => hnumber.lt

/-- Two bytes that are one character together, and escapes of all other kinds. -/
def escapes : String := "\"\\xC3\\xA9\\101\\u00e9\\U0001F600\\\"\\n\""

theorem unquote_exact_escapes :
    escapes.toList.head? = some '"' ∧ ReadExactly escapes := by
  have hquote : escapes.toList.head? = some '"' := by decide +kernel
  exact ⟨hquote, unquote_exact (.inl hquote)⟩

end GoAtlas.Literal
