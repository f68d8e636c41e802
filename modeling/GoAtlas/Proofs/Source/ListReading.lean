import GoAtlas.Proofs.Source.Phrase
import GoAtlas.Proofs.Source.Spelling

/-!
# Spelled lists are read back

Two readings of the same words are compared from the left: each is some words of its own and a
rest, and both rests stop, which is to say that they start with a word that nothing goes on with.
If each item of a spelled list is read back in this way, so is the list.
-/

namespace GoAtlas.Source

/-! ## Rests -/

/-- Some words, if any, start with one of some tokens. -/
def Stops (stops : List Token) (rest : List Word) : Prop :=
  ∀ word ∈ rest.head?, word.1 ∈ stops

variable {stops closers : List Token} {rest rest' body words : List Word}

@[simp] theorem stops_nil : Stops stops [] := by simp [Stops]

@[simp] theorem stops_cons {word : Word} : Stops stops (word :: rest) ↔ word.1 ∈ stops := by
  simp [Stops]

theorem not_stops {token : Token} {text : String} {more : List Word} (htoken : token ∉ stops) :
    ¬ Stops stops ((token, text) :: more) := by
  simpa using htoken

theorem Stops.mono {more : List Token} (hrest : Stops stops rest) (hmore : stops ⊆ more) :
    Stops more rest :=
  fun word hword => hmore (hrest word hword)

/-- What comes after an item stops it: a separator, or what closes the list. -/
theorem SeparatedTail.stops_append {separators : List Token} {items : List (List Word)}
    {tail : List Word} (htail : SeparatedTail separators items tail) (hrest : Stops closers rest) :
    Stops (separators ++ closers) (tail ++ rest) := by
  cases htail with
  | nil => exact hrest.mono (List.subset_append_right _ _)
  | last hseparator => simp [hseparator]
  | cons hseparator _ => simp [hseparator]

/-- Nothing comes before what closes the list. -/
theorem SeparatedTail.eq_nil_of_stops {separators : List Token} {items : List (List Word)}
    {tail : List Word} (htail : SeparatedTail separators items tail)
    (hapart : ∀ token ∈ separators, token ∉ closers) (hstops : Stops closers (tail ++ rest)) :
    items = [] ∧ tail = [] := by
  cases htail with
  | nil => exact ⟨rfl, rfl⟩
  | last hseparator => exact absurd hstops (not_stops (hapart _ hseparator))
  | cons hseparator _ => exact absurd hstops (not_stops (hapart _ hseparator))

/-- Some words of a phrase that start as a spelling does are all of it, and mean the same, if both
rests stop. -/
def ReadsBack {α β : Type} (stops : List Token) (phrase : List Word → α → Prop)
    (spell : β → List Word) (same : α → β → Prop) (spec : β) : Prop :=
  ∀ words entry rest rest', phrase words entry → words ++ rest = spell spec ++ rest' →
    Stops stops rest → Stops stops rest' → same entry spec ∧ rest = rest'

/-! ## Lists -/

theorem lineEnd_mem : Token.lineEnd ∈ terminators := by decide

section Lists

variable {α β : Type} {phrase : List Word → α → Prop} {spell : β → List Word}
  {same : α → β → Prop} {items : List (List Word)} {entries : List α} {specs : List β}

/-- Items with a line for each are read one by one, if each is read for itself. -/
theorem lines_unique
    (hunique : ∀ spec ∈ specs, ReadsBack (terminators ++ closers) phrase spell same spec)
    (hphrase : ∀ words entry, phrase words entry →
      ∃ word more, words = word :: more ∧ word.1 ∉ closers)
    (hspell : ∀ spec ∈ specs, ∃ word more, spell spec = word :: more ∧
      word.1 ∉ terminators ++ closers)
    (hclosers : ∀ token ∈ closers, token ∉ terminators)
    (hbody : Separated terminators items body) (hentries : List.Forall₂ phrase items entries)
    (hwords : body ++ rest = lineWords (specs.map spell) ++ rest')
    (hrest : Stops closers rest) (hrest' : Stops closers rest') :
    List.Forall₂ same entries specs ∧ rest = rest' := by
  induction specs generalizing items entries body with
  | nil =>
      cases hbody with
      | none htail =>
          subst hwords
          obtain ⟨-, rfl⟩ := htail.eq_nil_of_stops
            (fun token hseparator hcloser => hclosers token hcloser hseparator) hrest'
          cases hentries
          exact ⟨.nil, rfl⟩
      | cons htail =>
          cases hentries with
          | cons hitem _ =>
              obtain ⟨word, more, rfl, hword⟩ := hphrase _ _ hitem
              subst hwords
              exact absurd (by simpa using hrest') hword
  | cons spec specs ih =>
      cases hbody with
      | none htail =>
          obtain ⟨first, more, hfirst, hnot⟩ := hspell spec (List.mem_cons_self ..)
          have hstops := htail.stops_append hrest
          simp only [hwords, List.map_cons, lineWords, hfirst, List.cons_append] at hstops
          exact absurd hstops (not_stops hnot)
      | cons htail =>
          cases hentries with
          | cons hitem hentries =>
              simp only [List.map_cons, lineWords, List.append_assoc, List.cons_append] at hwords
              obtain ⟨hsame, hwords⟩ := hunique spec (List.mem_cons_self ..) _ _ _ _ hitem hwords
                (htail.stops_append hrest) (by simp [lineEnd_mem])
              have hothers := fun other hother => hunique other (List.mem_cons_of_mem _ hother)
              have hspells := fun other hother => hspell other (List.mem_cons_of_mem _ hother)
              cases htail with
              | nil =>
                  rw [List.nil_append] at hwords
                  subst hwords
                  exact absurd lineEnd_mem (hclosers _ (by simpa using hrest))
              | last hseparator =>
                  simp only [List.cons_append, List.nil_append, List.cons.injEq] at hwords
                  obtain ⟨hall, heq⟩ := ih hothers hspells (.none .nil) hentries hwords.2
                  exact ⟨.cons hsame hall, heq⟩
              | cons hseparator htail =>
                  simp only [List.cons_append, List.cons.injEq] at hwords
                  obtain ⟨hall, heq⟩ := ih hothers hspells (.cons htail) hentries hwords.2
                  exact ⟨.cons hsame hall, heq⟩

theorem commas_stop (hrest : Stops closers rest) :
    Stops (.comma :: closers) ((specs.map spell).flatMap ((.comma, ",") :: ·) ++ rest) := by
  cases specs with
  | nil => exact hrest.mono (List.subset_cons_self _ _)
  | cons spec specs => simp

/-- What comes after the first item of a list with commas. -/
theorem moreCommas_unique
    (hunique : ∀ spec ∈ specs, ReadsBack (.comma :: closers) phrase spell same spec)
    (hspell : ∀ spec ∈ specs, ∃ word more, spell spec = word :: more ∧
      word.1 ∉ Token.comma :: closers)
    (hcomma : Token.comma ∉ closers)
    (htail : SeparatedTail [.comma] items body) (hentries : List.Forall₂ phrase items entries)
    (hwords : body ++ rest = (specs.map spell).flatMap ((.comma, ",") :: ·) ++ rest')
    (hrest : Stops closers rest) (hrest' : Stops closers rest') :
    List.Forall₂ same entries specs ∧ rest = rest' := by
  induction specs generalizing items entries body with
  | nil =>
      subst hwords
      obtain ⟨rfl, rfl⟩ := htail.eq_nil_of_stops (by simpa using hcomma) hrest'
      cases hentries
      exact ⟨.nil, rfl⟩
  | cons spec specs ih =>
      simp only [List.map_cons, List.flatMap_cons, List.cons_append, List.append_assoc] at hwords
      cases htail with
      | nil =>
          rw [List.nil_append] at hwords
          subst hwords
          exact absurd (stops_cons.mp hrest) hcomma
      | last hseparator =>
          obtain ⟨first, more, hfirst, hnot⟩ := hspell spec (List.mem_cons_self ..)
          simp only [hfirst, List.cons_append, List.nil_append, List.cons.injEq] at hwords
          rw [hwords.2, stops_cons] at hrest
          exact absurd (List.mem_cons_of_mem _ hrest) hnot
      | cons hseparator htail =>
          cases hentries with
          | cons hitem hentries =>
              simp only [List.cons_append, List.append_assoc, List.cons.injEq] at hwords
              obtain ⟨hsame, hwords⟩ := hunique spec (List.mem_cons_self ..) _ _ _ _ hitem hwords.2
                (htail.stops_append hrest) (commas_stop hrest')
              obtain ⟨hall, heq⟩ := ih
                (fun other hother => hunique other (List.mem_cons_of_mem _ hother))
                (fun other hother => hspell other (List.mem_cons_of_mem _ hother))
                htail hentries hwords
              exact ⟨.cons hsame hall, heq⟩

/-- Items with commas between them are read one by one, if each is read for itself. -/
theorem commas_unique
    (hunique : ∀ spec ∈ specs, ReadsBack (.comma :: closers) phrase spell same spec)
    (hphrase : ∀ words entry, phrase words entry →
      ∃ word more, words = word :: more ∧ word.1 ∉ closers)
    (hspell : ∀ spec ∈ specs, ∃ word more, spell spec = word :: more ∧
      word.1 ∉ Token.comma :: closers)
    (hcomma : Token.comma ∉ closers)
    (hbody : Separated [.comma] items body) (hentries : List.Forall₂ phrase items entries)
    (hwords : body ++ rest = commaWords (specs.map spell) ++ rest')
    (hrest : Stops closers rest) (hrest' : Stops closers rest') :
    List.Forall₂ same entries specs ∧ rest = rest' := by
  cases hbody with
  | none htail =>
      cases specs with
      | nil => exact moreCommas_unique hunique hspell hcomma htail hentries hwords hrest hrest'
      | cons spec specs =>
          obtain ⟨first, more, hfirst, hnot⟩ := hspell spec (List.mem_cons_self ..)
          have hstops := htail.stops_append hrest
          simp only [hwords, List.map_cons, commaWords, hfirst, List.cons_append] at hstops
          exact absurd hstops (not_stops hnot)
  | cons htail =>
      cases hentries with
      | cons hitem hentries =>
          cases specs with
          | nil =>
              obtain ⟨word, more, rfl, hword⟩ := hphrase _ _ hitem
              rw [List.map_nil, commaWords, List.nil_append] at hwords
              subst hwords
              exact absurd (by simpa using hrest') hword
          | cons spec specs =>
              simp only [List.map_cons, commaWords, List.append_assoc] at hwords
              obtain ⟨hsame, hwords⟩ := hunique spec (List.mem_cons_self ..) _ _ _ _ hitem hwords
                (htail.stops_append hrest) (commas_stop hrest')
              obtain ⟨hall, heq⟩ := moreCommas_unique
                (fun other hother => hunique other (List.mem_cons_of_mem _ hother))
                (fun other hother => hspell other (List.mem_cons_of_mem _ hother))
                hcomma htail hentries hwords hrest hrest'
              exact ⟨.cons hsame hall, heq⟩

end Lists

end GoAtlas.Source
