import GoAtlas.Text.Blank

/-!
# Cutting texts

Trimming and splitting are undone by putting the parts together again.  `trimWhile_append` gives
what is left of a text with superfluous characters at its ends, and `exists_trimWhile` says that
nothing else is taken off.  A text that is split is the intercalation of its pieces
(`intercalate_splitWhere`), and they are the only pieces that do not hold the separator
(`splitWhere_intercalate`).
-/

namespace GoAtlas

variable {p : Char → Bool} {sep c : Char} {text front middle back rest piece : List Char}
  {parts : List (List Char)}

/-! ## Deciding -/

/-- A statement about the characters of a text is decided on the text, not on all characters. -/
instance (priority := 2000) decidableForallMem {p : Char → Prop} [DecidablePred p] :
    Decidable (∀ c ∈ text, p c) := List.decidableBAll p text

instance (priority := 2000) decidableForallMemOption {p : Char → Prop} [DecidablePred p] :
    (found : Option Char) → Decidable (∀ c ∈ found, p c)
  | none => isTrue fun _ hc => nomatch hc
  | some c =>
      decidable_of_iff (p c) ⟨fun hp _ hc => Option.some.inj hc ▸ hp, fun hall => hall c rfl⟩

/-! ## Taking characters off the ends -/

theorem takeWhile_append (hfront : ∀ c ∈ front, p c = true)
    (hrest : ∀ c ∈ rest.head?, p c = false) : (front ++ rest).takeWhile p = front := by
  have hstop : rest.takeWhile p = [] := by
    cases rest with
    | nil => rfl
    | cons c rest => rw [List.takeWhile_cons_of_neg (by simp [hrest c rfl])]
  rw [List.takeWhile_append_of_pos hfront, hstop, List.append_nil]

theorem dropWhile_append (hfront : ∀ c ∈ front, p c = true)
    (hrest : ∀ c ∈ rest.head?, p c = false) : (front ++ rest).dropWhile p = rest := by
  have hstop : rest.dropWhile p = rest := by
    cases rest with
    | nil => rfl
    | cons c rest => rw [List.dropWhile_cons_of_neg (by simp [hrest c rfl])]
  rw [List.dropWhile_append_of_pos hfront, hstop]

/-- What is left of a text that is cut off at both ends. -/
theorem trimWhile_append (hfront : ∀ c ∈ front, p c = true) (hback : ∀ c ∈ back, p c = true)
    (hhead : ∀ c ∈ middle.head?, p c = false) (hlast : ∀ c ∈ middle.getLast?, p c = false) :
    trimWhile p (front ++ (middle ++ back)) = middle := by
  have hback' : ∀ c ∈ back.reverse, p c = true := fun c hc => hback c (List.mem_reverse.mp hc)
  unfold trimWhile trimEndWhile
  cases middle with
  | nil =>
      have hall : ∀ c ∈ front ++ back, p c = true := List.forall_mem_append.mpr ⟨hfront, hback⟩
      have hnil : (front ++ back).dropWhile p = [] := by
        rw [← List.append_nil (front ++ back)]
        exact dropWhile_append hall fun _ hc => nomatch hc
      rw [List.nil_append, hnil]
      rfl
  | cons c middle =>
      have hhead' : ∀ d ∈ (c :: middle ++ back).head?, p d = false := hhead
      have hlast' : ∀ d ∈ (c :: middle).reverse.head?, p d = false := by
        rwa [List.head?_reverse]
      rw [dropWhile_append hfront hhead', List.reverse_append, dropWhile_append hback' hlast',
        List.reverse_reverse]

/-- Trimming takes characters off both ends as long as they can be taken off. -/
theorem exists_trimWhile (p : Char → Bool) (text : List Char) :
    ∃ front back, text = front ++ (trimWhile p text ++ back) ∧ (∀ c ∈ front, p c = true) ∧
      (∀ c ∈ back, p c = true) ∧ (∀ c ∈ (trimWhile p text).head?, p c = false) ∧
      ∀ c ∈ (trimWhile p text).getLast?, p c = false := by
  have hdrop : ∀ text : List Char, ∀ c ∈ (text.dropWhile p).head?, p c = false := by
    intro text c hc
    have hnot := List.head?_dropWhile_not p text
    rw [Option.mem_def.mp hc] at hnot
    exact hnot
  have htake : ∀ text : List Char, ∀ c ∈ text.takeWhile p, p c = true := fun text =>
    List.all_eq_true.mp List.all_takeWhile
  -- The back is cut off from the front of the reversed text.
  have hback : text.dropWhile p =
      trimWhile p text ++ ((text.dropWhile p).reverse.takeWhile p).reverse := by
    rw [trimWhile, trimEndWhile, ← List.reverse_append, List.takeWhile_append_dropWhile,
      List.reverse_reverse]
  refine ⟨text.takeWhile p, ((text.dropWhile p).reverse.takeWhile p).reverse, ?_, htake text,
    ?_, ?_, ?_⟩
  · rw [← hback, List.takeWhile_append_dropWhile]
  · intro c hc
    exact htake _ c (List.mem_reverse.mp hc)
  · intro c hc
    have hhead : c ∈ (text.dropWhile p).head? := by
      rw [hback, List.head?_append, Option.mem_def.mp hc]
      rfl
    exact hdrop text c hhead
  · intro c hc
    rw [trimWhile, trimEndWhile, List.getLast?_reverse] at hc
    exact hdrop _ c hc

/-! ## Splitting -/

theorem splitWhere_cons_of_not (hc : p c = false) (text : List Char) :
    ∃ piece parts, splitWhere p text = piece :: parts ∧
      splitWhere p (c :: text) = (c :: piece) :: parts := by
  cases hsplit : splitWhere p text with
  | nil => exact absurd hsplit (splitWhere_ne_nil p text)
  | cons piece parts => exact ⟨piece, parts, rfl, by simp [splitWhere, hc, hsplit]⟩

theorem splitWhere_append (hsep : p sep = true) (front back : List Char) :
    splitWhere p (front ++ sep :: back) = splitWhere p front ++ splitWhere p back := by
  induction front with
  | nil => simp [splitWhere, hsep]
  | cons c front ih =>
      by_cases hc : p c = true
      · simp [splitWhere, hc, ih]
      · obtain ⟨piece, parts, hfront, hcons⟩ :=
          splitWhere_cons_of_not (Bool.eq_false_iff.mpr hc) front
        rw [hfront, List.cons_append] at ih
        rw [hcons]
        simp [splitWhere, hc, ih]

theorem splitWhere_of_forall_not (hfree : ∀ c ∈ text, p c = false) :
    splitWhere p text = [text] := by
  induction text with
  | nil => rfl
  | cons c text ih =>
      have htext := ih fun d hd => hfree d (List.mem_cons_of_mem _ hd)
      simp [splitWhere, hfree c (List.mem_cons_self ..), htext]

/-- With one more character in front there is a new piece, or the first piece has grown. -/
theorem mem_splitWhere_cons (hpiece : piece ∈ splitWhere p (c :: text)) :
    piece = [] ∨ piece ∈ splitWhere p text ∨
      ∃ first ∈ splitWhere p text, p c = false ∧ piece = c :: first := by
  by_cases hc : p c = true
  · simp only [splitWhere, hc, if_true, List.mem_cons] at hpiece
    exact hpiece.imp_right .inl
  · rw [Bool.not_eq_true] at hc
    obtain ⟨first, parts, htext, hcons⟩ := splitWhere_cons_of_not hc text
    rw [hcons, List.mem_cons] at hpiece
    rcases hpiece with rfl | hpiece
    · exact .inr (.inr ⟨first, by simp [htext], hc, rfl⟩)
    · exact .inr (.inl (by simp [htext, hpiece]))

/-- No piece holds a character that the text is cut at. -/
theorem not_of_mem_splitWhere (hpiece : piece ∈ splitWhere p text) : ∀ c ∈ piece, p c = false := by
  induction text generalizing piece with
  | nil =>
      obtain rfl : piece = [] := by simpa [splitWhere] using hpiece
      simp
  | cons d text ih =>
      rcases mem_splitWhere_cons hpiece with rfl | hpiece | ⟨first, hfirst, hd, rfl⟩
      · simp
      · exact ih hpiece
      · simpa [hd] using ih hfirst

theorem mem_of_mem_splitWhere (hpiece : piece ∈ splitWhere p text) (hc : c ∈ piece) : c ∈ text := by
  induction text generalizing piece with
  | nil => simp_all [splitWhere]
  | cons d text ih =>
      rcases mem_splitWhere_cons hpiece with rfl | hpiece | ⟨first, hfirst, -, rfl⟩
      · cases hc
      · exact List.mem_cons_of_mem _ (ih hpiece hc)
      · rcases List.mem_cons.mp hc with rfl | hc
        · exact List.mem_cons_self ..
        · exact List.mem_cons_of_mem _ (ih hfirst hc)

/-- A text without a place to cut lengthens the last piece. -/
theorem splitWhere_append_of_forall_not (front : List Char) (hback : ∀ c ∈ back, p c = false) :
    ∃ before last, splitWhere p front = before ++ [last] ∧
      splitWhere p (front ++ back) = before ++ [last ++ back] := by
  induction front with
  | nil => exact ⟨[], [], rfl, by simp [splitWhere_of_forall_not hback]⟩
  | cons c front ih =>
      obtain ⟨before, last, hfront, happend⟩ := ih
      by_cases hc : p c = true
      · exact ⟨[] :: before, last, by simp [splitWhere, hc, hfront],
          by simp [splitWhere, hc, happend]⟩
      · cases before with
        | nil => exact ⟨[], c :: last, by simp [splitWhere, hc, hfront],
            by simp [splitWhere, hc, happend]⟩
        | cons first before => exact ⟨(c :: first) :: before, last,
            by simp [splitWhere, hc, hfront], by simp [splitWhere, hc, happend]⟩

/-- A text without a place to cut lengthens the first piece when it stands in front. -/
theorem splitWhere_forall_not_append (hfront : ∀ c ∈ front, p c = false) (back : List Char) :
    ∃ first parts, splitWhere p back = first :: parts ∧
      splitWhere p (front ++ back) = (front ++ first) :: parts := by
  induction front with
  | nil =>
      obtain ⟨first, parts, hback⟩ := List.exists_cons_of_ne_nil (splitWhere_ne_nil p back)
      exact ⟨first, parts, hback, hback⟩
  | cons c front ih =>
      obtain ⟨hc, hfront⟩ := List.forall_mem_cons.mp hfront
      obtain ⟨first, parts, hback, happend⟩ := ih hfront
      exact ⟨first, parts, hback, by simp [splitWhere, hc, happend]⟩

theorem head?_append {α : Type} {front back : List α} (hfront : front ≠ []) :
    (front ++ back).head? = front.head? := by
  obtain ⟨first, rest, rfl⟩ := List.exists_cons_of_ne_nil hfront
  rfl

theorem intercalate_append {α : Type} {sep : List α} {front back : List (List α)}
    (hfront : front ≠ []) (hback : back ≠ []) :
    sep.intercalate (front ++ back) = sep.intercalate front ++ (sep ++ sep.intercalate back) := by
  induction front with
  | nil => exact absurd rfl hfront
  | cons first front ih =>
      cases front with
      | nil =>
          obtain ⟨second, back, rfl⟩ := List.exists_cons_of_ne_nil hback
          simp [List.intercalate_cons_cons]
      | cons second front =>
          have hmore := ih (by simp)
          simp only [List.cons_append] at hmore ⊢
          simp [List.intercalate_cons_cons, hmore]

theorem intercalate_splitWhere (sep : Char) (text : List Char) :
    [sep].intercalate (splitWhere (· == sep) text) = text := by
  induction text with
  | nil => rfl
  | cons c text ih =>
      by_cases hc : c = sep
      · subst hc
        have hsplit : splitWhere (· == c) (c :: text) = [[]] ++ splitWhere (· == c) text := by
          simp [splitWhere]
        rw [hsplit, intercalate_append (by simp) (splitWhere_ne_nil _ _), ih]
        rfl
      · obtain ⟨first, parts, htext, hcons⟩ :=
          splitWhere_cons_of_not (p := (· == sep)) (beq_eq_false_iff_ne.mpr hc) text
        rw [htext] at ih
        rw [hcons, ← ih]
        cases parts with
        | nil => simp
        | cons second parts => simp [List.intercalate_cons_cons]

theorem splitWhere_intercalate (hne : parts ≠ []) (hfree : ∀ part ∈ parts, sep ∉ part) :
    splitWhere (· == sep) ([sep].intercalate parts) = parts := by
  have hpart : ∀ part ∈ parts, splitWhere (· == sep) part = [part] := fun part hpart =>
    splitWhere_of_forall_not fun c hc => beq_eq_false_iff_ne.mpr fun heq =>
      hfree part hpart (heq ▸ hc)
  induction parts with
  | nil => exact absurd rfl hne
  | cons first parts ih =>
      have hfirst := hpart first (List.mem_cons_self ..)
      cases parts with
      | nil => simpa using hfirst
      | cons second parts =>
          have hmore := ih (by simp) (fun part hmem => hfree part (List.mem_cons_of_mem _ hmem))
            fun part hmem => hpart part (List.mem_cons_of_mem _ hmem)
          rw [List.intercalate_cons_cons, List.append_assoc, List.singleton_append,
            splitWhere_append (by simp), hfirst, hmore]
          rfl

end GoAtlas
