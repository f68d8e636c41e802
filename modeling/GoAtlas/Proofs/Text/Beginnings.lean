import GoAtlas.Proofs.Text.Utf8

/-!
# Bytes that begin a character

The bytes of a character are those in the ranges that reading looks for (`wellFormed_iff`).
Reading leniently takes the first bytes of a character without the others for one replacement
character, and all of them for the character.  So several bytes are read as one character exactly
if a character begins with them (`length_decodeLossy_eq_one_iff`).
-/

namespace GoAtlas.Utf8

variable {first second : UInt8} {rest bytes others : List UInt8} {c : Char} {code : Nat}

/-! ## The bytes of a character -/

/-- Bytes that are together in the ranges for one character. -/
inductive WellFormed : List UInt8 → Prop where
  | one {first : UInt8} : first.toNat < 0x80 → WellFormed [first]
  | two {first second : UInt8} : within 0xC2 0xDF first = true →
      within 0x80 0xBF second = true → WellFormed [first, second]
  | three {first second third : UInt8} : within 0xE0 0xEF first = true →
      secondOfThree first second = true → within 0x80 0xBF third = true →
      WellFormed [first, second, third]
  | four {first second third fourth : UInt8} : within 0xF0 0xF4 first = true →
      secondOfFour first second = true → within 0x80 0xBF third = true →
      within 0x80 0xBF fourth = true → WellFormed [first, second, third, fourth]

theorem Written.wellFormed (hwritten : Written c bytes) : WellFormed bytes := by
  have hrange := toNat_range c
  cases hwritten with
  | one => exact .one (by omega)
  | two => exact .two (within_iff.mpr (by omega)) (within_iff.mpr (by omega))
  | three =>
      exact .three (within_iff.mpr (by omega)) (secondOfThree_iff.mpr (by omega))
        (within_iff.mpr (by omega))
  | four =>
      exact .four (within_iff.mpr (by omega)) (secondOfFour_iff.mpr (by omega))
        (within_iff.mpr (by omega)) (within_iff.mpr (by omega))

theorem exists_char (hcode : code < 0xD800 ∨ 0xDFFF < code ∧ code < 0x110000) :
    ∃ c : Char, c.toNat = code :=
  ⟨Char.ofNatAux code hcode, rfl⟩

/-- Bytes in the ranges for one character are written for the character with their number. -/
theorem WellFormed.exists_written (hbytes : WellFormed bytes) : ∃ c, Written c bytes := by
  cases hbytes with
  | @one first hfirst =>
      obtain ⟨c, hc⟩ : ∃ c : Char, c.toNat = first.toNat := exists_char (by omega)
      exact ⟨c, .one (by omega) hc.symm⟩
  | @two first second hfirst hsecond =>
      rw [within_iff] at hfirst hsecond
      obtain ⟨c, hc⟩ : ∃ c : Char,
          c.toNat = (first.toNat - 0xC0) * 64 + (second.toNat - 0x80) := exists_char (by omega)
      exact ⟨c, .two (by omega) (by omega) (by omega) (by omega)⟩
  | @three first second third hfirst hsecond hthird =>
      rw [within_iff] at hfirst hthird
      rw [secondOfThree_iff] at hsecond
      obtain ⟨c, hc⟩ : ∃ c : Char, c.toNat = (first.toNat - 0xE0) * 4096 +
          (second.toNat - 0x80) * 64 + (third.toNat - 0x80) := exists_char (by omega)
      exact ⟨c, .three (by omega) (by omega) (by omega) (by omega) (by omega)⟩
  | @four first second third fourth hfirst hsecond hthird hfourth =>
      rw [within_iff] at hfirst hthird hfourth
      rw [secondOfFour_iff] at hsecond
      obtain ⟨c, hc⟩ : ∃ c : Char, c.toNat = (first.toNat - 0xF0) * 262144 +
          (second.toNat - 0x80) * 4096 + (third.toNat - 0x80) * 64 + (fourth.toNat - 0x80) :=
        exists_char (by omega)
      exact ⟨c, .four (by omega) (by omega) (by omega) (by omega) (by omega)⟩

/-- The number of a character decides its bytes. -/
theorem Written.unique (hbytes : Written c bytes) (hothers : Written c others) :
    bytes = others := by
  cases hbytes <;> cases hothers <;>
    first
      | omega
      | (simp only [List.cons.injEq, ← UInt8.toNat_inj, and_true]; omega)

theorem wellFormed_iff : WellFormed bytes ↔ ∃ c, String.utf8EncodeChar c = bytes := by
  constructor
  · intro hbytes
    obtain ⟨c, hwritten⟩ := hbytes.exists_written
    exact ⟨c, (written_utf8EncodeChar c).unique hwritten⟩
  · rintro ⟨c, rfl⟩
    exact (written_utf8EncodeChar c).wellFormed

/-! ## How many bytes are read -/

theorem decodeFirst_three_begun (hfirst : within 0xE0 0xEF first = true)
    (hsecond : secondOfThree first second = true) :
    decodeFirst first [second] = (replacement, 1) :=
  decodeFirst_leadThree hfirst hsecond

theorem decodeFirst_four_begun (hfirst : within 0xF0 0xF4 first = true)
    (hsecond : secondOfFour first second = true)
    (hrest : rest = [] ∨ ∃ third, within 0x80 0xBF third = true ∧ rest = [third]) :
    decodeFirst first (second :: rest) = (replacement, 1 + rest.length) := by
  rw [decodeFirst_leadFour hfirst hsecond]
  obtain rfl | ⟨third, hthird, rfl⟩ := hrest
  · rfl
  · simp [hthird]

theorem decodeLossy_eq_nil_iff : decodeLossy bytes = [] ↔ bytes = [] := by
  cases bytes with
  | nil => exact ⟨fun _ => rfl, fun _ => decodeLossy.eq_1⟩
  | cons => simp [decodeLossy_cons (Prod.eta _).symm]

/-- If several bytes are read at once, all of them, then a character begins with them. -/
theorem exists_wellFormed (hrest : rest ≠ []) :
    rest.length ≤ (decodeFirst first rest).2 →
      ∃ bytes, WellFormed bytes ∧ first :: rest <+: bytes := by
  -- Where bytes are missing, any continuation bytes complete the character.
  have hmissing : within 0x80 0xBF 0x80 = true := by decide
  fun_cases decodeFirst first rest <;> intro hused
  case case2 hfirst second rest hsecond =>
    simp only [List.length_cons] at hused
    obtain rfl := List.length_eq_zero_iff.mp (by omega : rest.length = 0)
    exact ⟨_, .two hfirst hsecond, List.prefix_rfl⟩
  case case6 hfirst second hsecond third rest hthird =>
    simp only [List.length_cons] at hused
    obtain rfl := List.length_eq_zero_iff.mp (by omega : rest.length = 0)
    exact ⟨_, .three hfirst (by simpa using hsecond) hthird, List.prefix_rfl⟩
  case case8 hfirst second hsecond =>
    exact ⟨_, .three hfirst (by simpa using hsecond) hmissing, [0x80], rfl⟩
  case case12 hfirst second hsecond third hthird fourth rest hfourth =>
    simp only [List.length_cons] at hused
    obtain rfl := List.length_eq_zero_iff.mp (by omega : rest.length = 0)
    exact ⟨_, .four hfirst (by simpa using hsecond) (by simpa using hthird) hfourth,
      List.prefix_rfl⟩
  case case14 hfirst second hsecond third hthird =>
    exact ⟨_, .four hfirst (by simpa using hsecond) (by simpa using hthird) hmissing,
      [0x80], rfl⟩
  case case15 hfirst second hsecond =>
    exact ⟨_, .four hfirst (by simpa using hsecond) hmissing hmissing, [0x80, 0x80], rfl⟩
  all_goals simp_all

/-- The bytes that a character begins with are read at once. -/
theorem WellFormed.length_le (hbytes : WellFormed bytes) (hbegins : first :: rest <+: bytes) :
    rest.length ≤ (decodeFirst first rest).2 := by
  cases hbytes with
  | one =>
      obtain ⟨rfl, rfl⟩ : first = _ ∧ rest = [] := by simpa using hbegins
      exact Nat.zero_le _
  | two hfirst hsecond =>
      rw [List.cons_prefix_cons] at hbegins
      simp only [List.prefix_cons_iff, List.prefix_nil] at hbegins
      obtain ⟨rfl, rfl | ⟨_, rfl, rfl⟩⟩ := hbegins
      · exact Nat.zero_le _
      · rw [decodeFirst_two hfirst hsecond]
        exact Nat.le_refl _
  | three hfirst hsecond hthird =>
      rw [List.cons_prefix_cons] at hbegins
      simp only [List.prefix_cons_iff, List.prefix_nil] at hbegins
      obtain ⟨rfl, rfl | ⟨_, rfl, rfl | ⟨_, rfl, rfl⟩⟩⟩ := hbegins
      · exact Nat.zero_le _
      · rw [decodeFirst_three_begun hfirst hsecond]
        exact Nat.le_refl _
      · rw [decodeFirst_three hfirst hsecond hthird]
        exact Nat.le_refl _
  | four hfirst hsecond hthird hfourth =>
      rw [List.cons_prefix_cons] at hbegins
      simp only [List.prefix_cons_iff, List.prefix_nil] at hbegins
      obtain ⟨rfl, rfl | ⟨_, rfl, rfl | ⟨_, rfl, rfl | ⟨_, rfl, rfl⟩⟩⟩⟩ := hbegins
      · exact Nat.zero_le _
      · rw [decodeFirst_four_begun hfirst hsecond (.inl rfl)]
        exact Nat.le_refl _
      · rw [decodeFirst_four_begun hfirst hsecond (.inr ⟨_, hthird, rfl⟩)]
        exact Nat.le_refl _
      · rw [decodeFirst_four hfirst hsecond hthird hfourth]
        exact Nat.le_refl _

/-- Several bytes are read as one character exactly if a character begins with them. -/
theorem length_decodeLossy_eq_one_iff (hrest : rest ≠ []) :
    (decodeLossy (first :: rest)).length = 1 ↔ ∃ c, first :: rest <+: String.utf8EncodeChar c := by
  have hused : (decodeLossy (first :: rest)).length = 1 ↔
      rest.length ≤ (decodeFirst first rest).2 := by
    rw [decodeLossy_cons (Prod.eta _).symm, List.length_cons, Nat.add_eq_right,
      List.length_eq_zero_iff, decodeLossy_eq_nil_iff, List.drop_eq_nil_iff]
  rw [hused]
  constructor
  · intro hle
    obtain ⟨bytes, hbytes, hbegins⟩ := exists_wellFormed hrest hle
    obtain ⟨c, rfl⟩ := wellFormed_iff.mp hbytes
    exact ⟨c, hbegins⟩
  · rintro ⟨c, hbegins⟩
    exact (wellFormed_iff.mpr ⟨c, rfl⟩).length_le hbegins

end GoAtlas.Utf8
