import GoAtlas.Text.Utf8
import Mathlib.Data.List.Basic

/-!
# Encoded texts are read back

Reading bytes leniently loses nothing where they encode a text (`decodeLossy_encode`).  A
character has up to four bytes.  For each number of bytes there is one lemma that says what is
read when the bytes are in their ranges, and one that finds the bytes of a character in them: the
ranges leave out exactly the bytes that encode no character.
-/

namespace GoAtlas.Utf8

variable {first second third fourth : UInt8} {rest : List UInt8} {c : Char}

/-! ## What is read -/

theorem within_iff {low high : Nat} {b : UInt8} :
    within low high b = true ↔ low ≤ b.toNat ∧ b.toNat ≤ high := by
  rw [within, Bool.and_eq_true, decide_eq_true_eq, decide_eq_true_eq]

theorem within_eq_false {low high : Nat} {b : UInt8} (hb : high < b.toNat) :
    within low high b = false := by
  rw [within, Bool.and_eq_false_iff, decide_eq_false_iff_not, decide_eq_false_iff_not]
  omega

theorem secondOfThree_iff :
    secondOfThree first second = true ↔ 0x80 ≤ second.toNat ∧ second.toNat ≤ 0xBF ∧
      (first.toNat = 0xE0 → 0xA0 ≤ second.toNat) ∧
      (first.toNat = 0xED → second.toNat ≤ 0x9F) := by
  unfold secondOfThree
  split
  · rw [within_iff]
    omega
  split
  · rw [within_iff]
    omega
  · rw [within_iff]
    omega

theorem secondOfFour_iff :
    secondOfFour first second = true ↔ 0x80 ≤ second.toNat ∧ second.toNat ≤ 0xBF ∧
      (first.toNat = 0xF0 → 0x90 ≤ second.toNat) ∧
      (first.toNat = 0xF4 → second.toNat ≤ 0x8F) := by
  unfold secondOfFour
  split
  · rw [within_iff]
    omega
  split
  · rw [within_iff]
    omega
  · rw [within_iff]
    omega

theorem decodeFirst_one (hfirst : first.toNat < 0x80) :
    decodeFirst first rest = (Char.ofNat first.toNat, 0) := by
  unfold decodeFirst
  rw [if_pos hfirst]

theorem decodeFirst_two (hfirst : within 0xC2 0xDF first = true)
    (hsecond : within 0x80 0xBF second = true) :
    decodeFirst first (second :: rest) =
      (Char.ofNat ((first.toNat - 0xC0) * 64 + tail second), 1) := by
  have hlead : ¬ first.toNat < 0x80 := by
    rw [within_iff] at hfirst
    omega
  unfold decodeFirst
  simp only [if_neg hlead, hfirst, hsecond, if_true]

/-- What follows the first two bytes of a character of three bytes. -/
theorem decodeFirst_leadThree (hfirst : within 0xE0 0xEF first = true)
    (hsecond : secondOfThree first second = true) :
    decodeFirst first (second :: rest) =
      match rest with
      | third :: _ =>
          if within 0x80 0xBF third then
            (Char.ofNat ((first.toNat - 0xE0) * 4096 + tail second * 64 + tail third), 2)
          else (replacement, 1)
      | [] => (replacement, 1) := by
  have hlead := within_iff.mp hfirst
  have htwo : within 0xC2 0xDF first = false := within_eq_false (by omega)
  unfold decodeFirst
  rw [if_neg (by omega)]
  cases rest <;>
    simp only [htwo, hfirst, hsecond, Bool.false_eq_true, Bool.not_true, if_false, if_true]

theorem decodeFirst_three (hfirst : within 0xE0 0xEF first = true)
    (hsecond : secondOfThree first second = true) (hthird : within 0x80 0xBF third = true) :
    decodeFirst first (second :: third :: rest) =
      (Char.ofNat ((first.toNat - 0xE0) * 4096 + tail second * 64 + tail third), 2) := by
  rw [decodeFirst_leadThree hfirst hsecond]
  exact if_pos hthird

/-- What follows the first two bytes of a character of four bytes. -/
theorem decodeFirst_leadFour (hfirst : within 0xF0 0xF4 first = true)
    (hsecond : secondOfFour first second = true) :
    decodeFirst first (second :: rest) =
      match rest with
      | third :: more =>
          if !within 0x80 0xBF third then (replacement, 1)
          else
            match more with
            | fourth :: _ =>
                if within 0x80 0xBF fourth then
                  (Char.ofNat ((first.toNat - 0xF0) * 262144 + tail second * 4096 +
                    tail third * 64 + tail fourth), 3)
                else (replacement, 2)
            | [] => (replacement, 2)
      | [] => (replacement, 1) := by
  have hlead := within_iff.mp hfirst
  have htwo : within 0xC2 0xDF first = false := within_eq_false (by omega)
  have hthree : within 0xE0 0xEF first = false := within_eq_false (by omega)
  unfold decodeFirst
  rw [if_neg (by omega)]
  obtain _ | ⟨third, _ | ⟨fourth, later⟩⟩ := rest <;>
    simp only [htwo, hthree, hfirst, hsecond, Bool.false_eq_true, Bool.not_true, if_false, if_true]

theorem decodeFirst_four (hfirst : within 0xF0 0xF4 first = true)
    (hsecond : secondOfFour first second = true) (hthird : within 0x80 0xBF third = true)
    (hfourth : within 0x80 0xBF fourth = true) :
    decodeFirst first (second :: third :: fourth :: rest) =
      (Char.ofNat ((first.toNat - 0xF0) * 262144 + tail second * 4096 + tail third * 64 +
        tail fourth), 3) := by
  rw [decodeFirst_leadFour hfirst hsecond]
  simp [hthird, hfourth]

/-! ## What is written -/

theorem utf8EncodeChar_toNat (c : Char) :
    String.utf8EncodeChar c =
      if c.toNat ≤ 0x7F then [UInt8.ofNat c.toNat]
      else if c.toNat ≤ 0x7FF then
        [UInt8.ofNat (c.toNat / 64 % 32 + 0xC0), UInt8.ofNat (c.toNat % 64 + 0x80)]
      else if c.toNat ≤ 0xFFFF then
        [UInt8.ofNat (c.toNat / 4096 % 16 + 0xE0), UInt8.ofNat (c.toNat / 64 % 64 + 0x80),
          UInt8.ofNat (c.toNat % 64 + 0x80)]
      else
        [UInt8.ofNat (c.toNat / 262144 % 8 + 0xF0), UInt8.ofNat (c.toNat / 4096 % 64 + 0x80),
          UInt8.ofNat (c.toNat / 64 % 64 + 0x80), UInt8.ofNat (c.toNat % 64 + 0x80)] :=
  rfl

/-- No character has a code among the surrogates or above the last plane. -/
theorem toNat_range (c : Char) : c.toNat < 0xD800 ∨ 0xDFFF < c.toNat ∧ c.toNat < 0x110000 :=
  c.valid

/-- The ways in which a character is written, by the numbers of its bytes. -/
inductive Written (c : Char) : List UInt8 → Prop where
  | one {first : UInt8} : c.toNat < 0x80 → first.toNat = c.toNat → Written c [first]
  | two {first second : UInt8} : 0x80 ≤ c.toNat → c.toNat < 0x800 →
      first.toNat = c.toNat / 64 + 0xC0 → second.toNat = c.toNat % 64 + 0x80 →
      Written c [first, second]
  | three {first second third : UInt8} : 0x800 ≤ c.toNat → c.toNat < 0x10000 →
      first.toNat = c.toNat / 4096 + 0xE0 → second.toNat = c.toNat / 64 % 64 + 0x80 →
      third.toNat = c.toNat % 64 + 0x80 → Written c [first, second, third]
  | four {first second third fourth : UInt8} : 0x10000 ≤ c.toNat →
      first.toNat = c.toNat / 262144 + 0xF0 → second.toNat = c.toNat / 4096 % 64 + 0x80 →
      third.toNat = c.toNat / 64 % 64 + 0x80 → fourth.toNat = c.toNat % 64 + 0x80 →
      Written c [first, second, third, fourth]

theorem written_utf8EncodeChar (c : Char) : Written c (String.utf8EncodeChar c) := by
  have hrange := toNat_range c
  have hbyte : ∀ n < 256, (UInt8.ofNat n).toNat = n := by
    intro n hn
    rw [UInt8.toNat_ofNat']
    omega
  rw [utf8EncodeChar_toNat]
  split
  · exact .one (by omega) (hbyte _ (by omega))
  split
  · refine .two (by omega) (by omega) ?_ ?_ <;> rw [hbyte _ (by omega)]
    omega
  split
  · refine .three (by omega) (by omega) ?_ ?_ ?_ <;> rw [hbyte _ (by omega)]
    omega
  · refine .four (by omega) ?_ ?_ ?_ ?_ <;> rw [hbyte _ (by omega)]
    omega

/-- A character beyond ASCII has no byte of an ASCII character. -/
theorem Written.ascii_or_beyond {bytes : List UInt8} (hwritten : Written c bytes) :
    (∃ first, bytes = [first] ∧ first.toNat = c.toNat) ∨ ∀ byte ∈ bytes, 0x80 ≤ byte.toNat := by
  cases hwritten with
  | one _ hfirst => exact .inl ⟨_, rfl, hfirst⟩
  | _ =>
      right
      simp only [List.forall_mem_cons, List.not_mem_nil, false_imp_iff, implies_true, and_true]
      omega

/-! ## Texts -/

theorem encode_cons (c : Char) (text : List Char) :
    encode (c :: text) = String.utf8EncodeChar c ++ encode text :=
  List.flatMap_cons

theorem encode_append (front back : List Char) :
    encode (front ++ back) = encode front ++ encode back :=
  List.flatMap_append

theorem decodeLossy_cons {used : Nat} (hfirst : decodeFirst first rest = (c, used)) :
    decodeLossy (first :: rest) = c :: decodeLossy (rest.drop used) := by
  rw [decodeLossy, hfirst]

/-- The bytes of a character in front of any others are read as the character. -/
theorem Written.decodeLossy_append {bytes : List UInt8} (hwritten : Written c bytes)
    (rest : List UInt8) : decodeLossy (bytes ++ rest) = c :: decodeLossy rest := by
  have hrange := toNat_range c
  have hread : ∀ {code : Nat}, code = c.toNat → Char.ofNat code = c := by
    rintro code rfl
    exact Char.ofNat_toNat c
  cases hwritten with
  | @one first hlow hfirst =>
      have hdecode : decodeFirst first rest = _ := decodeFirst_one (by omega)
      rw [hread hfirst] at hdecode
      exact decodeLossy_cons hdecode
  | @two first second hlow hhigh hfirst hsecond =>
      have hlead : within 0xC2 0xDF first = true := within_iff.mpr ⟨by omega, by omega⟩
      have htail : within 0x80 0xBF second = true := within_iff.mpr ⟨by omega, by omega⟩
      have hdecode : decodeFirst first (second :: rest) = _ := decodeFirst_two hlead htail
      have hcode : (first.toNat - 0xC0) * 64 + tail second = c.toNat := by
        unfold tail
        omega
      rw [hread hcode] at hdecode
      exact decodeLossy_cons hdecode
  | @three first second third hlow hhigh hfirst hsecond hthird =>
      have hlead : within 0xE0 0xEF first = true := within_iff.mpr ⟨by omega, by omega⟩
      have hnext : secondOfThree first second = true := secondOfThree_iff.mpr (by omega)
      have htail : within 0x80 0xBF third = true := within_iff.mpr ⟨by omega, by omega⟩
      have hdecode : decodeFirst first (second :: third :: rest) = _ :=
        decodeFirst_three hlead hnext htail
      have hcode : (first.toNat - 0xE0) * 4096 + tail second * 64 + tail third = c.toNat := by
        unfold tail
        omega
      rw [hread hcode] at hdecode
      exact decodeLossy_cons hdecode
  | @four first second third fourth hlow hfirst hsecond hthird hfourth =>
      have hlead : within 0xF0 0xF4 first = true := within_iff.mpr ⟨by omega, by omega⟩
      have hnext : secondOfFour first second = true := secondOfFour_iff.mpr (by omega)
      have hmiddle : within 0x80 0xBF third = true := within_iff.mpr ⟨by omega, by omega⟩
      have htail : within 0x80 0xBF fourth = true := within_iff.mpr ⟨by omega, by omega⟩
      have hdecode : decodeFirst first (second :: third :: fourth :: rest) = _ :=
        decodeFirst_four hlead hnext hmiddle htail
      have hcode : (first.toNat - 0xF0) * 262144 + tail second * 4096 + tail third * 64 +
          tail fourth = c.toNat := by
        unfold tail
        omega
      rw [hread hcode] at hdecode
      exact decodeLossy_cons hdecode

theorem decodeLossy_encode (text : List Char) : decodeLossy (encode text) = text := by
  induction text with
  | nil => exact decodeLossy.eq_1
  | cons c text ih =>
      calc decodeLossy (encode (c :: text))
          = decodeLossy (String.utf8EncodeChar c ++ encode text) := by rw [encode_cons]
        _ = c :: decodeLossy (encode text) := (written_utf8EncodeChar c).decodeLossy_append _
        _ = c :: text := by rw [ih]

end GoAtlas.Utf8
