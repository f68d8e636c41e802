import GoAtlas.Manifest.Basic
import GoAtlas.Manifest.Escape
import GoAtlas.Proofs.Files.Paths

/-!
# Import paths and modules

An import path that belongs to a module is the path of the module or continues it after a slash
(`Manifest.relativeTo?_eq_some`), and a module path is read back from the way in which the module
cache writes it (`unescapeChars_escapeChars`).
-/

namespace GoAtlas

variable {c : Char} {text rest : List Char}

theorem expect?_eq_some {start : List Char} :
    expect? start text = some rest ↔ text = start ++ rest := by
  induction start generalizing text with
  | nil => simp [expect?]
  | cons d start ih =>
      cases text with
      | nil => simp [expect?]
      | cons c text =>
          by_cases heq : d = c
          · simp [expect?, heq, ih]
          · simp [expect?, heq, Ne.symm heq]

/-! ## Escaped module paths -/

/-- The characters of a range are found by their numbers. -/
theorem exists_of_range {first last : Char} (hrange : (first ≤ c && c ≤ last) = true) :
    ∃ n < last.toNat + 1, first.toNat ≤ n ∧ Char.ofNat n = c := by
  simp only [Bool.and_eq_true, decide_eq_true_eq, Char.le_def, UInt32.le_iff_toNat_le] at hrange
  exact ⟨c.toNat, Nat.lt_succ_of_le hrange.2, hrange.1, Char.ofNat_toNat c⟩

/-- The small letter of a capital, whose capital is the letter again. -/
theorem asciiUpper_asciiLower (hupper : isAsciiUpper c = true) :
    asciiUpper (asciiLower c) = c ∧ asciiLower c ≠ '@' ∧ asciiLower c ≠ '/' := by
  have hletters : ∀ n < 91, 65 ≤ n → asciiUpper (asciiLower (Char.ofNat n)) = Char.ofNat n ∧
      asciiLower (Char.ofNat n) ≠ '@' ∧ asciiLower (Char.ofNat n) ≠ '/' := by decide
  obtain ⟨n, hlast, hfirst, rfl⟩ := exists_of_range hupper
  exact hletters n hlast hfirst

theorem unescapeChars_cons (hc : c ≠ '!') :
    unescapeChars (c :: text) = c :: unescapeChars text := by
  rw [unescapeChars.eq_4]
  all_goals simp [hc]

theorem unescapeChars_of_not_mem (hmark : '!' ∉ text) : unescapeChars text = text := by
  induction text with
  | nil => rfl
  | cons c text ih =>
      simp only [List.mem_cons, not_or] at hmark
      rw [unescapeChars_cons (Ne.symm hmark.1), ih hmark.2]

/-- What has been escaped is read back, in front of any text. -/
theorem unescapeChars_escapeChars (hmark : '!' ∉ text) (rest : List Char) :
    unescapeChars (escapeChars text ++ rest) = text ++ unescapeChars rest := by
  induction text with
  | nil => rfl
  | cons c text ih =>
      simp only [List.mem_cons, not_or] at hmark
      by_cases hupper : isAsciiUpper c = true
      · simp [escapeChars, hupper, unescapeChars, ih hmark.2, asciiUpper_asciiLower hupper]
      · simp [escapeChars, hupper, unescapeChars_cons (Ne.symm hmark.1), ih hmark.2]

/-- Escaping makes no mark of a version. -/
theorem not_mem_escapeChars (htext : '@' ∉ text) : '@' ∉ escapeChars text := by
  induction text with
  | nil => exact htext
  | cons c text ih =>
      simp only [List.mem_cons, not_or] at htext
      by_cases hupper : isAsciiUpper c = true
      · simp [escapeChars, hupper, ih htext.2, Ne.symm (asciiUpper_asciiLower hupper).2.1]
      · simp [escapeChars, hupper, ih htext.2, htext.1]

/-- Escaping leaves the slashes where they are. -/
theorem splitWhere_escapeChars (text : List Char) :
    splitWhere (· == '/') (escapeChars text) = (splitWhere (· == '/') text).map escapeChars := by
  induction text with
  | nil => rfl
  | cons c text ih =>
      by_cases hslash : c = '/'
      · subst hslash
        have hupper : isAsciiUpper '/' = false := by decide
        simp [escapeChars, hupper, splitWhere, ih]
      have hc : (c == '/') = false := beq_eq_false_iff_ne.mpr hslash
      obtain ⟨piece, parts, htext, -⟩ :=
        splitWhere_cons_of_not (p := (· == '/')) hc text
      rw [htext, List.map_cons] at ih
      by_cases hupper : isAsciiUpper c = true
      · have hlower := (asciiUpper_asciiLower hupper).2.2
        simp [escapeChars, hupper, splitWhere, hlower, ih, htext, hslash]
      · simp [escapeChars, hupper, splitWhere, ih, htext, hslash]

namespace Manifest

variable {module importPath remainder : String} {manifest : Manifest} {requirement : Requirement}

/-- What is left of an import path inside a module. -/
theorem relativeTo?_eq_some (hrest : relativeTo? module importPath = some remainder) :
    importPath = module ∧ remainder = "" ∨ importPath = module ++ "/" ++ remainder := by
  unfold relativeTo? at hrest
  split at hrest
  case h_1 hexpect =>
    cases hrest
    exact .inl ⟨String.toList_injective (by simpa using expect?_eq_some.mp hexpect), rfl⟩
  case h_2 tail hexpect =>
    cases hrest
    exact .inr (String.toList_injective (by simpa using expect?_eq_some.mp hexpect))
  case h_3 => cases hrest

/-- The requirement that provides an import path is one whose module it belongs to. -/
theorem requirementFor?_some (hfor : manifest.requirementFor? importPath = some requirement) :
    requirement ∈ manifest.requires ∧ belongsTo requirement.path importPath = true := by
  have hlonger : ∀ (requirements : List Requirement) (best : Option Requirement),
      requirements.foldl longer best = some requirement →
        requirement ∈ requirements ∨ best = some requirement := by
    intro requirements
    induction requirements with
    | nil => exact fun best hbest => .inr hbest
    | cons next requirements ih =>
        intro best hfold
        rcases ih _ hfold with hmem | hnext
        · exact .inl (List.mem_cons_of_mem _ hmem)
        · unfold longer at hnext
          split at hnext
          · cases hnext
            exact .inl (List.mem_cons_self ..)
          · split at hnext
            · cases hnext
              exact .inl (List.mem_cons_self ..)
            · exact .inr hnext
  rcases hlonger _ _ hfor with hmem | hnone
  · exact List.mem_filter.mp hmem
  · cases hnone

end Manifest

end GoAtlas
