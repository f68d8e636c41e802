import GoAtlas.Proofs.Text.Splitting

/-!
# Lines, comments and words

A text is read line by line, each line up to its comment, and what stands before it word by word.
The lemmas here say what these readers find in a text that has been put together: its lines
(`lines_flatMap`), the text before the first `//` and the one after it (`cutAtPair_comment`), and
two words with blanks between them (`words_pair`).
-/

namespace GoAtlas

variable {p : Char → Bool} {c : Char}
  {text front back rest line word gap first second : List Char} {texts : List (List Char)}

/-! ## Trimming -/

theorem trimWhile_append_left (hfront : ∀ c ∈ front, p c = true) (text : List Char) :
    trimWhile p (front ++ text) = trimWhile p text := by
  rw [trimWhile, trimWhile, List.dropWhile_append_of_pos hfront]

theorem trimWhile_append_right (hback : ∀ c ∈ back, p c = true) (text : List Char) :
    trimWhile p (text ++ back) = trimWhile p text := by
  obtain ⟨before, after, htext, hbefore, hafter, hhead, hlast⟩ := exists_trimWhile p text
  have hends : ∀ c ∈ after ++ back, p c = true := List.forall_mem_append.mpr ⟨hafter, hback⟩
  calc trimWhile p (text ++ back)
      = trimWhile p (before ++ (trimWhile p text ++ (after ++ back))) := by
        rw [← List.append_assoc (trimWhile p text), ← List.append_assoc before, ← htext]
    _ = trimWhile p text := trimWhile_append hbefore hends hhead hlast

/-- A text is trimmed to what stands between its superfluous ends. -/
theorem trimWhile_eq_iff {middle : List Char} : trimWhile p text = middle ↔
    (∃ front back, text = front ++ (middle ++ back) ∧ (∀ c ∈ front, p c = true) ∧
      ∀ c ∈ back, p c = true) ∧
    (∀ c ∈ middle.head?, p c = false) ∧ ∀ c ∈ middle.getLast?, p c = false := by
  constructor
  · rintro rfl
    obtain ⟨front, back, htext, hfront, hback, hhead, hlast⟩ := exists_trimWhile p text
    exact ⟨⟨front, back, htext, hfront, hback⟩, hhead, hlast⟩
  · rintro ⟨⟨front, back, rfl, hfront, hback⟩, hhead, hlast⟩
    exact trimWhile_append hfront hback hhead hlast

theorem trimWhile_eq_self (hhead : ∀ c ∈ text.head?, p c = false)
    (hlast : ∀ c ∈ text.getLast?, p c = false) : trimWhile p text = text :=
  trimWhile_eq_iff.mpr ⟨⟨[], [], by simp, by simp, by simp⟩, hhead, hlast⟩

/-! ## Lines -/

/-- At most a carriage return is taken off a line. -/
theorem dropCarriageReturn_append (line : List Char) :
    ∃ back, line = dropCarriageReturn line ++ back ∧ ∀ c ∈ back, c = '\r' := by
  unfold dropCarriageReturn
  split
  case h_1 hlast =>
    obtain ⟨front, rfl⟩ := List.getLast?_eq_some_iff.mp hlast
    exact ⟨['\r'], by rw [List.dropLast_concat], by simp⟩
  case h_2 => exact ⟨[], by simp, by simp⟩

/-- The blanks at the end of a line are cut off with or without its carriage return. -/
theorem trimBlanks_dropCarriageReturn (line : List Char) :
    trimBlanks (dropCarriageReturn line) = trimBlanks line := by
  obtain ⟨back, hline, hreturns⟩ := dropCarriageReturn_append line
  have hback : ∀ c ∈ back, isBlank c = true := fun c hc => hreturns c hc ▸ rfl
  calc trimBlanks (dropCarriageReturn line)
      = trimBlanks (dropCarriageReturn line ++ back) := (trimWhile_append_right hback _).symm
    _ = trimBlanks line := by rw [← hline]

theorem dropCarriageReturn_concat (front : List Char) (c : Char) :
    dropCarriageReturn (front ++ [c]) = if c = '\r' then front else front ++ [c] := by
  unfold dropCarriageReturn
  rw [List.getLast?_concat, List.dropLast_concat]
  split
  case h_1 heq =>
    cases heq
    rfl
  case h_2 hne => rw [if_neg fun heq => hne (congrArg some heq)]

theorem dropCarriageReturn_append_cons (hc : c ≠ '\r') (front rest : List Char) :
    dropCarriageReturn (front ++ c :: rest) = front ++ c :: dropCarriageReturn rest := by
  rcases List.eq_nil_or_concat rest with rfl | ⟨rest, last, rfl⟩
  · rw [dropCarriageReturn_concat, if_neg hc]
    rfl
  · rw [List.concat_eq_append, ← List.cons_append, ← List.append_assoc, dropCarriageReturn_concat,
      dropCarriageReturn_concat]
    split <;> simp

theorem lines_append (hline : '\n' ∉ line) (rest : List Char) :
    lines (line ++ '\n' :: rest) = dropCarriageReturn line :: lines rest := by
  have hfree : ∀ c ∈ line, (c == '\n') = false := fun c hc =>
    beq_eq_false_iff_ne.mpr fun heq => hline (heq ▸ hc)
  have hsplit : splitWhere (· == '\n') (line ++ '\n' :: rest) =
      line :: splitWhere (· == '\n') rest := by
    rw [splitWhere_append (by decide), splitWhere_of_forall_not hfree]
    rfl
  -- The rest has a piece as well, so the line is not the last one and its end is cut off.
  obtain ⟨piece, pieces, hrest⟩ := List.exists_cons_of_ne_nil (splitWhere_ne_nil (· == '\n') rest)
  unfold lines
  simp only [hsplit, hrest, List.dropLast_cons_cons, List.map_cons, List.getLast?_cons_cons]
  split <;> rfl

theorem lines_flatMap (hlines : ∀ line ∈ texts, '\n' ∉ line) :
    lines (texts.flatMap (· ++ ['\n'])) = texts.map dropCarriageReturn := by
  induction texts with
  | nil => rfl
  | cons line texts ih =>
      obtain ⟨hline, hlines⟩ := List.forall_mem_cons.mp hlines
      rw [List.flatMap_cons, List.append_assoc, List.singleton_append, lines_append hline,
        ih hlines, List.map_cons]

/-! ## Comments -/

/-- Two slashes stand nowhere next to each other. -/
def IsClear (text : List Char) : Prop := ¬ ['/', '/'] <:+: text

instance : Decidable (IsClear text) := inferInstanceAs (Decidable (¬ _))

theorem isClear_nil : IsClear [] := by simp [IsClear]

theorem isClear_cons (hc : c ≠ '/') : IsClear (c :: text) ↔ IsClear text := by
  simp [IsClear, List.infix_cons_iff, hc.symm]

theorem IsClear.tail (hclear : IsClear (c :: text)) : IsClear text := fun hslashes =>
  hclear (hslashes.trans (List.suffix_cons c text).isInfix)

theorem isClear_append_cons (hc : c ≠ '/') (hfront : IsClear front) (hback : IsClear back) :
    IsClear (front ++ c :: back) := by
  induction front with
  | nil => exact (isClear_cons hc).mpr hback
  | cons d front ih =>
      have hmore := ih hfront.tail
      intro hslashes
      rcases List.infix_cons_iff.mp hslashes with hhead | htail
      · obtain ⟨rfl, hsecond⟩ := List.cons_prefix_cons.mp hhead
        -- The second slash would be the separator or stand in the front next to the first one.
        cases front with
        | nil => exact hc (List.cons_prefix_cons.mp hsecond).1.symm
        | cons e front =>
            obtain ⟨rfl, -⟩ := List.cons_prefix_cons.mp hsecond
            exact hfront ⟨[], front, rfl⟩
      · exact hmore htail

theorem isClear_append_of_forall_ne (hfront : ∀ c ∈ front, c ≠ '/') :
    IsClear (front ++ text) ↔ IsClear text := by
  induction front with
  | nil => rfl
  | cons c front ih =>
      obtain ⟨hc, hfront⟩ := List.forall_mem_cons.mp hfront
      rw [List.cons_append, isClear_cons hc, ih hfront]

theorem isClear_of_forall_ne (htext : ∀ c ∈ text, c ≠ '/') : IsClear text := by
  rw [← List.append_nil text, isClear_append_of_forall_ne htext]
  exact isClear_nil

theorem isClear_append_right (hfront : IsClear front) (hback : ∀ c ∈ back, c ≠ '/') :
    IsClear (front ++ back) := by
  cases back with
  | nil => rwa [List.append_nil]
  | cons c back =>
      obtain ⟨hc, hback⟩ := List.forall_mem_cons.mp hback
      exact isClear_append_cons hc hfront (isClear_of_forall_ne hback)

theorem cutAtPair_of_isClear (hclear : IsClear text) : cutAtPair '/' '/' text = none := by
  cases hcut : cutAtPair '/' '/' text with
  | none => rfl
  | some parts =>
      obtain ⟨before, after⟩ := parts
      exact absurd ⟨before, after, by simp [cutAtPair_eq_some hcut]⟩ hclear

/-- A text is cut at its first two slashes. -/
theorem cutAtPair_comment (hclear : IsClear (front ++ ['/'])) :
    cutAtPair '/' '/' (front ++ '/' :: '/' :: rest) = some (front, rest) := by
  induction front with
  | nil => simp [cutAtPair]
  | cons c front ih =>
      have hmore := ih hclear.tail
      obtain ⟨d, more, hcons⟩ : ∃ d more, front ++ '/' :: '/' :: rest = d :: more :=
        List.exists_cons_of_ne_nil (by simp)
      have hnot : ¬ (c = '/' ∧ d = '/') := by
        rintro ⟨rfl, rfl⟩
        cases front with
        | nil => exact hclear ⟨[], [], rfl⟩
        | cons e front =>
            cases hcons
            exact hclear ⟨[], front ++ ['/'], rfl⟩
      rw [List.cons_append, hcons, cutAtPair, if_neg hnot, ← hcons, hmore]
      rfl

/-! ## Words -/

theorem words_append (hc : isBlank c = true) (front back : List Char) :
    words (front ++ c :: back) = words front ++ words back := by
  rw [words, splitWhere_append hc, List.filter_append]
  rfl

theorem words_append_blanks (hfront : ∀ c ∈ front, isBlank c = true) (text : List Char) :
    words (front ++ text) = words text := by
  induction front with
  | nil => rfl
  | cons c front ih =>
      obtain ⟨hc, hfront⟩ := List.forall_mem_cons.mp hfront
      rw [List.cons_append, ← ih hfront]
      exact words_append hc [] _

theorem words_of_word (hne : word ≠ []) (hword : ∀ c ∈ word, isBlank c = false) :
    words word = [word] := by
  rw [words, splitWhere_of_forall_not hword]
  simp [hne]

/-- Two words with blanks between them. -/
theorem words_pair (hfirst : first ≠ [] ∧ ∀ c ∈ first, isBlank c = false)
    (hgap : gap ≠ [] ∧ ∀ c ∈ gap, isBlank c = true)
    (hsecond : second ≠ [] ∧ ∀ c ∈ second, isBlank c = false) :
    words (first ++ (gap ++ second)) = [first, second] := by
  obtain ⟨c, more, rfl⟩ := List.exists_cons_of_ne_nil hgap.1
  obtain ⟨hc, hmore⟩ := List.forall_mem_cons.mp hgap.2
  rw [List.cons_append, words_append hc, words_append_blanks hmore,
    words_of_word hfirst.1 hfirst.2, words_of_word hsecond.1 hsecond.2]
  rfl

end GoAtlas
