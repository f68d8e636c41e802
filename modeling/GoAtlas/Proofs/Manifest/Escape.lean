import GoAtlas.Proofs.Manifest
import Mathlib.Data.Set.Function

/-!
# Escaped module paths

The module cache may lie in a file system that does not tell capitals from small letters, so the
directories of different modules have to differ in more than that.  Paths without a mark and
their escaped forms correspond to each other (`escapeModulePath_bijOn`): escaping and reading back
undo each other, and escaped forms have no capitals, so nothing is lost when a file system drops
the difference.

Which texts are escaped forms is said by positions (`IsEscaped`): behind each mark stands a small
letter.  Reading back takes two characters at a time, so the proofs go along a text in the same
steps, with one equation for a mark (`isEscaped_mark_iff`) and one for any other character
(`isEscaped_cons_iff`).
-/

namespace GoAtlas

variable {c : Char} {text rest : List Char}

/-! ## Letters -/

theorem isAsciiLower_asciiLower (hupper : isAsciiUpper c = true) :
    isAsciiLower (asciiLower c) = true := by
  have hletters : ∀ n < 91, 65 ≤ n → isAsciiLower (asciiLower (Char.ofNat n)) = true := by decide
  obtain ⟨n, hlast, hfirst, rfl⟩ := exists_of_range hupper
  exact hletters n hlast hfirst

/-- The capital of a small letter, whose small letter is the letter again. -/
theorem asciiLower_asciiUpper (hlower : isAsciiLower c = true) :
    isAsciiUpper (asciiUpper c) = true ∧ asciiLower (asciiUpper c) = c := by
  have hletters : ∀ n < 123, 97 ≤ n → isAsciiUpper (asciiUpper (Char.ofNat n)) = true ∧
      asciiLower (asciiUpper (Char.ofNat n)) = Char.ofNat n := by decide
  obtain ⟨n, hlast, hfirst, rfl⟩ := exists_of_range hlower
  exact hletters n hlast hfirst

theorem not_isAsciiUpper_of_isAsciiLower (hlower : isAsciiLower c = true) :
    isAsciiUpper c = false := by
  have hletters : ∀ n < 123, 97 ≤ n → isAsciiUpper (Char.ofNat n) = false := by decide
  obtain ⟨n, hlast, hfirst, rfl⟩ := exists_of_range hlower
  exact hletters n hlast hfirst

theorem ne_mark_of_isAsciiLower (hlower : isAsciiLower c = true) : c ≠ '!' := by
  rintro rfl
  cases hlower

theorem ne_mark_of_isAsciiUpper (hupper : isAsciiUpper c = true) : c ≠ '!' := by
  rintro rfl
  cases hupper

/-! ## Escaped forms -/

/-- There are no capitals in a text, and behind each mark stands a small letter. -/
structure IsEscaped (text : List Char) : Prop where
  capital : ∀ c ∈ text, isAsciiUpper c = false
  mark : ∀ front back, text = front ++ '!' :: back → ∃ c ∈ back.head?, isAsciiLower c = true

theorem isEscaped_nil : IsEscaped [] :=
  ⟨fun _ hmem => absurd hmem List.not_mem_nil, fun front back heq => by simp at heq⟩

theorem IsEscaped.tail (hescaped : IsEscaped (c :: text)) : IsEscaped text where
  capital d hmem := hescaped.capital d (List.mem_cons_of_mem c hmem)
  mark front back heq := hescaped.mark (c :: front) back (by rw [heq, List.cons_append])

theorem isEscaped_cons_iff (hc : c ≠ '!') :
    IsEscaped (c :: text) ↔ isAsciiUpper c = false ∧ IsEscaped text := by
  refine ⟨fun hescaped => ⟨hescaped.capital c (List.mem_cons_self ..), hescaped.tail⟩, ?_⟩
  rintro ⟨hcapital, hescaped⟩
  refine ⟨List.forall_mem_cons.mpr ⟨hcapital, hescaped.capital⟩, fun front back heq => ?_⟩
  cases front with
  | nil => exact absurd (List.cons.inj heq).1 hc
  | cons d front => exact hescaped.mark front back (List.cons.inj heq).2

theorem isEscaped_mark_iff :
    IsEscaped ('!' :: text) ↔
      ∃ c rest, text = c :: rest ∧ isAsciiLower c = true ∧ IsEscaped rest := by
  constructor
  · intro hescaped
    obtain ⟨c, hhead, hlower⟩ := hescaped.mark [] text rfl
    obtain ⟨rest, rfl⟩ := List.head?_eq_some_iff.mp hhead
    exact ⟨c, rest, rfl, hlower, hescaped.tail.tail⟩
  · rintro ⟨c, rest, rfl, hlower, hrest⟩
    have htail : IsEscaped (c :: rest) := (isEscaped_cons_iff (ne_mark_of_isAsciiLower hlower)).mpr
      ⟨not_isAsciiUpper_of_isAsciiLower hlower, hrest⟩
    refine ⟨List.forall_mem_cons.mpr ⟨rfl, htail.capital⟩, fun front back heq => ?_⟩
    cases front with
    | nil => exact ⟨c, by rw [← (List.cons.inj heq).2]; rfl, hlower⟩
    | cons d front => exact htail.mark front back (List.cons.inj heq).2

theorem isEscaped_escapeChars (hmark : '!' ∉ text) : IsEscaped (escapeChars text) := by
  induction text with
  | nil => exact isEscaped_nil
  | cons c text ih =>
      simp only [List.mem_cons, not_or] at hmark
      have hrest := ih hmark.2
      unfold escapeChars
      split
      case isTrue hupper =>
        exact isEscaped_mark_iff.mpr ⟨_, _, rfl, isAsciiLower_asciiLower hupper, hrest⟩
      case isFalse hupper =>
        exact (isEscaped_cons_iff (Ne.symm hmark.1)).mpr ⟨Bool.eq_false_iff.mpr hupper, hrest⟩

/-- An escaped form is read back as a text without marks, which is escaped in this form. -/
theorem escapeChars_unescapeChars (hescaped : IsEscaped text) :
    '!' ∉ unescapeChars text ∧ escapeChars (unescapeChars text) = text := by
  induction text using unescapeChars.induct with
  | case1 => exact ⟨List.not_mem_nil, rfl⟩
  | case2 =>
      obtain ⟨c, rest, heq, -⟩ := isEscaped_mark_iff.mp hescaped
      cases heq
  | case3 c rest ih =>
      obtain ⟨_, _, heq, hlower, hrest⟩ := isEscaped_mark_iff.mp hescaped
      cases heq
      obtain ⟨hmark, hback⟩ := ih hrest
      obtain ⟨hupper, hletter⟩ := asciiLower_asciiUpper hlower
      rw [unescapeChars]
      refine ⟨?_, by rw [escapeChars, if_pos hupper, hletter, hback]⟩
      simp [hmark, (ne_mark_of_isAsciiUpper hupper).symm]
  | case4 c rest hlone hpair ih =>
      have hc : c ≠ '!' := by
        rintro rfl
        cases rest with
        | nil => exact hlone rfl rfl
        | cons d rest => exact hpair d rest rfl rfl
      obtain ⟨hcapital, hrest⟩ := (isEscaped_cons_iff hc).mp hescaped
      obtain ⟨hmark, hback⟩ := ih hrest
      rw [unescapeChars_cons hc]
      refine ⟨by simp [hmark, hc.symm], ?_⟩
      rw [escapeChars, if_neg (by simp [hcapital]), hback]

/-! ## Module paths -/

/-- The module paths without a mark. -/
def plainPaths : Set String :=
  {path | '!' ∉ path.toList}

/-- The texts that are escaped forms. -/
def escapedPaths : Set String :=
  {text | IsEscaped text.toList}

/-- A text without the difference between capitals and small letters. -/
def foldCase (text : String) : String :=
  String.ofList (text.toList.map asciiLower)

theorem foldCase_eq_self {text : String} (hcapital : ∀ c ∈ text.toList, isAsciiUpper c = false) :
    foldCase text = text := by
  have hletters : ∀ c ∈ text.toList, asciiLower c = c := by
    intro c hmem
    rw [asciiLower, if_neg (by simp [hcapital c hmem])]
  rw [foldCase, List.map_congr_left hletters, List.map_id', String.ofList_toList]

theorem mapsTo_escapeModulePath : Set.MapsTo escapeModulePath plainPaths escapedPaths := by
  intro path hpath
  simpa [escapedPaths, escapeModulePath] using isEscaped_escapeChars hpath

theorem mapsTo_unescapeModulePath : Set.MapsTo unescapeModulePath escapedPaths plainPaths := by
  intro text htext
  simpa [plainPaths, unescapeModulePath] using (escapeChars_unescapeChars htext).1

theorem invOn_escapeModulePath :
    Set.InvOn unescapeModulePath escapeModulePath plainPaths escapedPaths := by
  constructor
  · intro path hpath
    have hback := unescapeChars_escapeChars hpath []
    rw [List.append_nil] at hback
    simp [unescapeModulePath, escapeModulePath, hback, unescapeChars]
  · intro text htext
    simp [unescapeModulePath, escapeModulePath, (escapeChars_unescapeChars htext).2]

theorem injOn_foldCase_escapeModulePath :
    Set.InjOn (fun path => foldCase (escapeModulePath path)) plainPaths := by
  have hfold :
      Set.EqOn escapeModulePath (fun path => foldCase (escapeModulePath path)) plainPaths :=
    fun path hpath => (foldCase_eq_self (mapsTo_escapeModulePath hpath).capital).symm
  exact invOn_escapeModulePath.1.injOn.congr hfold

/-- **Escaping is a bijection** from the paths without a mark to the escaped forms, and reading
back is its inverse.  Different paths have forms that differ in more than capitals. -/
theorem escapeModulePath_bijOn :
    Set.BijOn escapeModulePath plainPaths escapedPaths ∧
      Set.InvOn unescapeModulePath escapeModulePath plainPaths escapedPaths ∧
      Set.MapsTo unescapeModulePath escapedPaths plainPaths ∧
      Set.InjOn (fun path => foldCase (escapeModulePath path)) plainPaths := by
  have hbij : Set.BijOn escapeModulePath plainPaths escapedPaths :=
    invOn_escapeModulePath.bijOn mapsTo_escapeModulePath mapsTo_unescapeModulePath
  exact ⟨hbij, invOn_escapeModulePath, mapsTo_unescapeModulePath, injOn_foldCase_escapeModulePath⟩

example : escapeModulePath "github.com/BurntSushi/toml" = "github.com/!burnt!sushi/toml" := by
  decide +kernel

end GoAtlas
