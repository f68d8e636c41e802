import GoAtlas.Text.Utf8

/-!
# Parts of a text by offsets in bytes

A part of a text can be given by the offsets of its ends, counted in bytes.  It is a text only if
the offsets are in order, lie in the text and do not fall into characters.  `slice?` is the part if
there is one, and `slice?_eq_some_iff` says when that is: the part stands between two texts, and
its ends are where the first one ends and where it ends itself.
-/

namespace GoAtlas

variable {text part front back : String} {start stop : Nat}

/-- An offset that is the end of a text or the place of the first byte of a character. -/
def IsBoundary (text : String) (offset : Nat) : Prop := (String.Pos.Raw.mk offset).IsValid text

instance : Decidable (IsBoundary text start) :=
  inferInstanceAs (Decidable ((String.Pos.Raw.mk start).IsValid text))

/-- The part of a text from the offset `start` up to the offset `stop`, if both are boundaries and
in order. -/
def slice? (text : String) (start stop : Nat) : Option String :=
  if hoffsets : IsBoundary text start ∧ IsBoundary text stop ∧ start ≤ stop then
    some (text.slice (text.pos ⟨start⟩ hoffsets.1) (text.pos ⟨stop⟩ hoffsets.2.1)
      hoffsets.2.2).copy
  else none

/-- A boundary is the end of a text that the text begins with. -/
theorem isBoundary_iff :
    IsBoundary text start ↔ ∃ front back, text = front ++ back ∧ front.utf8ByteSize = start := by
  simp [IsBoundary, String.Pos.Raw.isValid_iff_exists_append, String.Pos.Raw.ext_iff, eq_comm]

theorem isBoundary_append (front back : String) : IsBoundary (front ++ back) front.utf8ByteSize :=
  isBoundary_iff.mpr ⟨front, back, rfl, rfl⟩

theorem slice?_eq_some_iff :
    slice? text start stop = some part ↔
      ∃ front back, text = front ++ part ++ back ∧ front.utf8ByteSize = start ∧
        start + part.utf8ByteSize = stop := by
  constructor
  · intro hslice
    unfold slice? at hslice
    split at hslice
    case isFalse => cases hslice
    case isTrue hoffsets =>
      obtain ⟨front, back, hfront, hback⟩ :=
        String.copy_slice_eq_iff_splits.mp ⟨_, Option.some.inj hslice⟩
      have hstart : start = front.utf8ByteSize :=
        congrArg String.Pos.Raw.byteIdx hfront.offset_eq_rawEndPos
      have hstop : stop = (front ++ part).utf8ByteSize :=
        congrArg String.Pos.Raw.byteIdx hback.offset_eq_rawEndPos
      refine ⟨front, back, hback.eq_append, hstart.symm, ?_⟩
      rw [hstop, hstart, String.utf8ByteSize_append]
  · rintro ⟨front, back, rfl, rfl, rfl⟩
    have hstart : IsBoundary (front ++ part ++ back) front.utf8ByteSize := by
      rw [String.append_assoc]
      exact isBoundary_append front _
    have hstop : IsBoundary (front ++ part ++ back) (front.utf8ByteSize + part.utf8ByteSize) := by
      rw [← String.utf8ByteSize_append]
      exact isBoundary_append _ back
    obtain ⟨hle, hcopy⟩ := String.copy_slice_eq_iff_splits.mpr ⟨front, back,
      (⟨String.append_assoc, rfl⟩ : ((front ++ part ++ back).pos _ hstart).Splits _ _),
      (⟨rfl, String.Pos.Raw.ext String.utf8ByteSize_append.symm⟩ :
        ((front ++ part ++ back).pos _ hstop).Splits _ _)⟩
    rw [slice?, dif_pos ⟨hstart, hstop, hle⟩]
    exact congrArg some hcopy

theorem slice?_front (front back : String) :
    slice? (front ++ back) 0 front.utf8ByteSize = some front :=
  slice?_eq_some_iff.mpr ⟨"", back, by simp, rfl, Nat.zero_add _⟩

theorem slice?_back (front back : String) :
    slice? (front ++ back) front.utf8ByteSize (front ++ back).utf8ByteSize = some back :=
  slice?_eq_some_iff.mpr ⟨front, "", by simp, rfl, String.utf8ByteSize_append.symm⟩

theorem utf8ByteSize_append_one (hone : part.utf8ByteSize = 1) :
    (front ++ part).utf8ByteSize = front.utf8ByteSize + 1 := by
  rw [String.utf8ByteSize_append, hone]

/-- A text has as many bytes as it is written with. -/
theorem length_encode (text : String) : (Utf8.encode text.toList).length = text.utf8ByteSize := by
  have hbytes : (Utf8.encode text.toList).toByteArray = text.toByteArray := String.utf8Encode_toList
  rw [← String.size_toByteArray, ← hbytes, List.size_toByteArray]

theorem utf8ByteSize_ofList (text : List Char) :
    (String.ofList text).utf8ByteSize = (Utf8.encode text).length := by
  rw [← length_encode, String.toList_ofList]

end GoAtlas
