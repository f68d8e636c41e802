import GoAtlas.Manifest.Basic
import GoAtlas.Proofs.Text.Lines
import Mathlib.Data.List.Basic

/-!
# How manifests are written

The text of a manifest is a sequence of items (`Item`): lines that hold one directive, or none, and
blocks.  Each line of an item has a content with a margin around it (`Margin`), that is blanks,
a comment and a carriage return.  Every margin is read over (`shows_around`).

A comment begins at the first `//` of a line, whatever stands before it.  That is why no content
has two slashes next to each other.
-/

namespace GoAtlas.Manifest

/-! ## The grammar -/

/-- A blank that does not end a line. -/
def IsSpace (c : Char) : Prop := isBlank c = true ∧ c ≠ '\n'

/-- Blanks between two words. -/
def IsGap (gap : List Char) : Prop := gap ≠ [] ∧ ∀ c ∈ gap, IsSpace c

/-- A word that can stand before a comment: neither blanks nor `//` are in it. -/
structure IsWord (word : List Char) : Prop where
  ne_nil : word ≠ []
  blank : ∀ c ∈ word, isBlank c = false
  clear : IsClear word

/-- What can stand on a line between its margins. -/
structure IsContent (content : List Char) : Prop where
  line : '\n' ∉ content
  clear : IsClear content
  head : ∀ c ∈ content.head?, isBlank c = false
  last : ∀ c ∈ content.getLast?, isBlank c = false

/-- What stands around the content of a line: blanks, a comment, and the carriage return of its
end. -/
structure Margin where
  indent : List Char := []
  trail : List Char := []
  comment : Option (List Char) := none
  carriageReturn : Bool := false

namespace Margin

/-- The comment of a line with the slashes before it. -/
def remark (margin : Margin) : List Char :=
  margin.comment.elim [] fun comment => '/' :: '/' :: comment

/-- What ends a line before its line feed. -/
def ending (margin : Margin) : List Char := if margin.carriageReturn then ['\r'] else []

/-- What stands on a line before its comment. -/
def before (margin : Margin) (content : List Char) : List Char :=
  margin.indent ++ (content ++ margin.trail)

/-- The line with the given content. -/
def around (margin : Margin) (content : List Char) : List Char :=
  margin.before content ++ (margin.remark ++ margin.ending)

/-- A margin that can stand around the given content. -/
structure Fits (margin : Margin) (content : List Char) : Prop where
  indent : ∀ c ∈ margin.indent, IsSpace c
  trail : ∀ c ∈ margin.trail, IsSpace c
  comment : ∀ comment ∈ margin.comment, '\n' ∉ comment
  /-- A slash right before a comment would be taken for the first one of its mark. -/
  apart : margin.comment ≠ none → margin.trail = [] → content.getLast? ≠ some '/'

end Margin

/-- A requirement as it is written. -/
structure Entry where
  path : List Char
  gap : List Char
  version : List Char

namespace Entry

def chars (entry : Entry) : List Char := entry.path ++ (entry.gap ++ entry.version)

structure IsProper (entry : Entry) : Prop where
  path : IsWord entry.path
  gap : IsGap entry.gap
  version : IsWord entry.version

end Entry

/-- The words that directives of their own begin with. -/
def keywords : List (List Char) := ["module".toList, "go".toList, "require".toList]

/-- A directive that is stepped over, and what follows it on its line. -/
structure IsOther (word gap rest : List Char) : Prop where
  unknown : word ∉ keywords
  first : IsWord word
  spaces : ∀ c ∈ gap, IsSpace c
  apart : gap = [] → rest = []
  head : ∀ c ∈ rest.head?, isBlank c = false
  content : IsContent (word ++ (gap ++ rest))

/-- A directive of one line. -/
inductive Directive where
  | module (gap path : List Char)
  | go (gap version : List Char)
  | require (gap : List Char) (entry : Entry)
  | other (word gap rest : List Char)

namespace Directive

def chars : Directive → List Char
  | module gap path => "module".toList ++ (gap ++ path)
  | go gap version => "go".toList ++ (gap ++ version)
  | require gap entry => "require".toList ++ (gap ++ entry.chars)
  | other word gap rest => word ++ (gap ++ rest)

def IsProper : Directive → Prop
  | module gap path => IsGap gap ∧ IsWord path
  | go gap version => IsGap gap ∧ IsWord version
  | require gap entry => IsGap gap ∧ entry.IsProper
  | other word gap rest => IsOther word gap rest ∧ rest.getLast? ≠ some '('

end Directive

/-- A piece of a manifest. -/
inductive Item where
  /-- A line with nothing but a comment or blanks. -/
  | blank (margin : Margin)
  | line (directive : Directive) (margin : Margin)
  /-- A block of requirements, and of lines with nothing but comments or blanks. -/
  | requires (gap : List Char) (opening : Margin) (entries : List (Option Entry × Margin))
      (closing : Margin)
  /-- A block of another directive with any lines in it. -/
  | block (word gap rest : List Char) (opening : Margin) (inner : List (List Char))
      (closing : Margin)

/-- The entries of a block of requirements with their comments. -/
def noted (entries : List (Option Entry × Margin)) : List (Entry × Option (List Char)) :=
  entries.filterMap fun (entry, margin) => entry.map (·, margin.comment)

namespace Item

/-- A line that closes a block. -/
def Closes (line : List Char) : Prop :=
  ∃ margin, Margin.Fits margin [')'] ∧ line = margin.around [')']

/-- A line in a block that is stepped over. -/
def IsInner (line : List Char) : Prop := '\n' ∉ line ∧ ¬ Closes line

/-- A line of a block of requirements. -/
def entryLine (line : Option Entry × Margin) : List Char :=
  line.2.around (line.1.elim [] Entry.chars)

/-- The lines of an item. -/
def lines : Item → List (List Char)
  | blank margin => [margin.around []]
  | line directive margin => [margin.around directive.chars]
  | requires gap opening entries closing =>
      opening.around ("require".toList ++ (gap ++ ['('])) ::
        entries.map entryLine ++ [closing.around [')']]
  | block word gap rest opening inner closing =>
      opening.around (word ++ (gap ++ rest)) :: inner ++ [closing.around [')']]

def IsProper : Item → Prop
  | blank margin => margin.Fits []
  | line directive margin => directive.IsProper ∧ margin.Fits directive.chars
  | requires gap opening entries closing =>
      IsGap gap ∧ opening.Fits ("require".toList ++ (gap ++ ['('])) ∧ closing.Fits [')'] ∧
        ∀ line ∈ entries, (∀ entry ∈ line.1, entry.IsProper) ∧
          line.2.Fits (line.1.elim [] Entry.chars)
  | block word gap rest opening inner closing =>
      IsOther word gap rest ∧ rest.getLast? = some '(' ∧ opening.Fits (word ++ (gap ++ rest)) ∧
        closing.Fits [')'] ∧ ∀ line ∈ inner, IsInner line

/-- The module path that an item gives. -/
def path? : Item → Option (List Char)
  | line (.module _ path) _ => some path
  | _ => none

/-- The language version that an item gives. -/
def version? : Item → Option (List Char)
  | line (.go _ version) _ => some version
  | _ => none

/-- The requirements of an item with their comments. -/
def entries : Item → List (Entry × Option (List Char))
  | line (.require _ entry) margin => [(entry, margin.comment)]
  | requires _ _ entries _ => noted entries
  | _ => []

end Item

/-- The text of some items; every line of it is ended. -/
def text (items : List Item) : List Char := (items.flatMap Item.lines).flatMap (· ++ ['\n'])

variable {c : Char} {content word gap rest : List Char}
  {margin : Margin} {entry : Entry} {directive : Directive}

/-! ## Checking the grammar -/

instance : DecidablePred IsSpace := fun _ => inferInstanceAs (Decidable (_ ∧ _))

instance : DecidablePred IsGap := fun _ => inferInstanceAs (Decidable (_ ∧ _))

instance : DecidablePred IsWord := fun word =>
  decidable_of_iff (word ≠ [] ∧ (∀ c ∈ word, isBlank c = false) ∧ IsClear word)
    ⟨fun h => ⟨h.1, h.2.1, h.2.2⟩, fun h => ⟨h.ne_nil, h.blank, h.clear⟩⟩

instance : DecidablePred IsContent := fun content =>
  decidable_of_iff ('\n' ∉ content ∧ IsClear content ∧ (∀ c ∈ content.head?, isBlank c = false) ∧
      ∀ c ∈ content.getLast?, isBlank c = false)
    ⟨fun h => ⟨h.1, h.2.1, h.2.2.1, h.2.2.2⟩, fun h => ⟨h.line, h.clear, h.head, h.last⟩⟩

instance : DecidablePred margin.Fits := fun content =>
  decidable_of_iff ((∀ c ∈ margin.indent, IsSpace c) ∧ (∀ c ∈ margin.trail, IsSpace c) ∧
      (∀ comment ∈ margin.comment, '\n' ∉ comment) ∧
      (margin.comment ≠ none → margin.trail = [] → content.getLast? ≠ some '/'))
    ⟨fun h => ⟨h.1, h.2.1, h.2.2.1, h.2.2.2⟩, fun h => ⟨h.indent, h.trail, h.comment, h.apart⟩⟩

instance : DecidablePred Entry.IsProper := fun entry =>
  decidable_of_iff (IsWord entry.path ∧ IsGap entry.gap ∧ IsWord entry.version)
    ⟨fun h => ⟨h.1, h.2.1, h.2.2⟩, fun h => ⟨h.path, h.gap, h.version⟩⟩

instance : Decidable (IsOther word gap rest) :=
  decidable_of_iff (word ∉ keywords ∧ IsWord word ∧ (∀ c ∈ gap, IsSpace c) ∧
      (gap = [] → rest = []) ∧ (∀ c ∈ rest.head?, isBlank c = false) ∧
      IsContent (word ++ (gap ++ rest)))
    ⟨fun h => ⟨h.1, h.2.1, h.2.2.1, h.2.2.2.1, h.2.2.2.2.1, h.2.2.2.2.2⟩,
      fun h => ⟨h.unknown, h.first, h.spaces, h.apart, h.head, h.content⟩⟩

instance : DecidablePred Directive.IsProper
  | .module _ _ | .go _ _ | .require _ _ | .other _ _ _ => inferInstanceAs (Decidable (_ ∧ _))

/-! ## Contents -/

theorem IsSpace.ne_slash (hspace : IsSpace c) : c ≠ '/' := by
  rintro rfl
  exact absurd hspace.1 (by decide)

theorem IsWord.isContent (hword : IsWord word) : IsContent word where
  line hbreak := absurd (hword.blank '\n' hbreak) (by decide)
  clear := hword.clear
  head c hc := hword.blank c (List.mem_of_mem_head? hc)
  last c hc := hword.blank c (List.mem_of_mem_getLast? hc)

theorem IsContent.trim (hcontent : IsContent content) : trimBlanks content = content :=
  trimWhile_eq_self hcontent.head hcontent.last

/-- A word, a gap and a content are a content. -/
theorem IsContent.phrase (hcontent : IsContent content) (hne : content ≠ []) (hword : IsWord word)
    (hgap : IsGap gap) : IsContent (word ++ (gap ++ content)) := by
  obtain ⟨hsome, hspaces⟩ := hgap
  constructor
  · simp only [List.mem_append, not_or]
    exact ⟨hword.isContent.line, fun hbreak => (hspaces '\n' hbreak).2 rfl, hcontent.line⟩
  · obtain ⟨c, gap, rfl⟩ := List.exists_cons_of_ne_nil hsome
    obtain ⟨hc, hspaces⟩ := List.forall_mem_cons.mp hspaces
    refine isClear_append_cons hc.ne_slash hword.clear ?_
    exact (isClear_append_of_forall_ne fun c hc => (hspaces c hc).ne_slash).mpr hcontent.clear
  · rw [head?_append hword.ne_nil]
    exact hword.isContent.head
  · rw [List.getLast?_append_of_ne_nil _ (by simp [hne]), List.getLast?_append_of_ne_nil _ hne]
    exact hcontent.last

theorem IsOther.trim (hother : IsOther word gap rest) : trimBlanks rest = rest := by
  refine trimWhile_eq_self hother.head fun c hc => ?_
  have hne : rest ≠ [] := by
    rintro rfl
    cases hc
  refine hother.content.last c ?_
  rwa [List.getLast?_append_of_ne_nil _ (by simp [hne]), List.getLast?_append_of_ne_nil _ hne]

theorem Entry.IsProper.isContent (hproper : entry.IsProper) : IsContent entry.chars :=
  hproper.version.isContent.phrase hproper.version.ne_nil hproper.path hproper.gap

theorem isWord_of_mem_keywords (hword : word ∈ keywords) : IsWord word := by
  have hkeywords : ∀ word ∈ keywords, word ≠ [] ∧ ∀ c ∈ word, isBlank c = false ∧ c ≠ '/' := by
    decide
  obtain ⟨hne, hchars⟩ := hkeywords word hword
  exact ⟨hne, fun c hc => (hchars c hc).1, isClear_of_forall_ne fun c hc => (hchars c hc).2⟩

theorem isContent_opening (hgap : IsGap gap) : IsContent ("require".toList ++ (gap ++ ['('])) := by
  have hparenthesis : IsWord ['('] :=
    ⟨by decide, by decide, isClear_of_forall_ne (by decide)⟩
  exact hparenthesis.isContent.phrase (by decide) (isWord_of_mem_keywords (by decide)) hgap

theorem isContent_closing : IsContent [')'] :=
  IsWord.isContent ⟨by decide, by decide, isClear_of_forall_ne (by decide)⟩

theorem isContent_nil : IsContent [] := ⟨by simp, isClear_nil, by simp, by simp⟩

theorem Directive.IsProper.isContent (hproper : directive.IsProper) :
    IsContent directive.chars := by
  have hkeyword : ∀ {word gap content : List Char}, word ∈ keywords → IsGap gap →
      IsContent content → content ≠ [] → IsContent (word ++ (gap ++ content)) :=
    fun hword hgap hcontent hne => hcontent.phrase hne (isWord_of_mem_keywords hword) hgap
  cases directive with
  | module gap path => exact hkeyword (by decide) hproper.1 hproper.2.isContent hproper.2.ne_nil
  | go gap version => exact hkeyword (by decide) hproper.1 hproper.2.isContent hproper.2.ne_nil
  | require gap entry =>
      have hne : entry.chars ≠ [] := by simp [Entry.chars, hproper.2.path.ne_nil]
      exact hkeyword (by decide) hproper.1 hproper.2.isContent hne
  | other word gap rest => exact hproper.1.content

/-! ## Margins -/

/-- What a line shows to the reader: its content and its comment. -/
def Shows (line content : List Char) (comment : Option (List Char)) : Prop :=
  ∃ before, splitComment line = (before, comment.map trimBlanks) ∧ trimBlanks before = content

theorem isBlank_of_mem_carriageReturns {back : List Char} (hback : ∀ c ∈ back, c = '\r') :
    ∀ c ∈ back, isBlank c = true := by
  intro c hc
  rw [hback c hc]
  rfl

theorem Margin.ending_eq (margin : Margin) : ∀ c ∈ margin.ending, c = '\r' := by
  unfold Margin.ending
  split <;> simp

theorem Margin.Fits.not_mem (hfits : margin.Fits content) (hcontent : IsContent content) :
    '\n' ∉ margin.around content := by
  have hspaces : ∀ {spaces : List Char}, (∀ c ∈ spaces, IsSpace c) → '\n' ∉ spaces :=
    fun hall hbreak => (hall '\n' hbreak).2 rfl
  have hending : '\n' ∉ margin.ending := fun hbreak =>
    absurd (margin.ending_eq _ hbreak) (by decide)
  have hremark : '\n' ∉ margin.remark := by
    unfold Margin.remark
    cases hcomment : margin.comment with
    | none => simp
    | some comment => simpa using hfits.comment comment hcomment
  simp only [Margin.around, Margin.before, List.mem_append, not_or]
  exact ⟨⟨hspaces hfits.indent, hcontent.line, hspaces hfits.trail⟩, hremark, hending⟩

/-- Blanks before and after a content are cut off. -/
theorem Margin.Fits.trim (hfits : margin.Fits content) (hcontent : IsContent content) :
    trimBlanks (margin.before content) = content :=
  trimWhile_append (fun c hc => (hfits.indent c hc).1) (fun c hc => (hfits.trail c hc).1)
    hcontent.head hcontent.last

theorem Margin.Fits.clear (hfits : margin.Fits content) (hcontent : IsContent content) :
    IsClear (margin.before content) := by
  rw [Margin.before, isClear_append_of_forall_ne fun c hc => (hfits.indent c hc).ne_slash]
  exact isClear_append_right hcontent.clear fun c hc => (hfits.trail c hc).ne_slash

/-- The first slash of a comment is the first one that has another one after it. -/
theorem Margin.Fits.clear_slash (hfits : margin.Fits content) (hcontent : IsContent content)
    (hcomment : margin.comment ≠ none) : IsClear (margin.before content ++ ['/']) := by
  have hslash : IsClear ['/'] := by simp [IsClear, List.infix_cons_iff]
  have happend : margin.before content ++ ['/'] =
      margin.indent ++ (content ++ (margin.trail ++ ['/'])) := by
    simp [Margin.before]
  rw [happend, isClear_append_of_forall_ne fun c hc => (hfits.indent c hc).ne_slash]
  cases htrail : margin.trail with
  | cons c trail =>
      have hspaces := hfits.trail
      rw [htrail, List.forall_mem_cons] at hspaces
      refine isClear_append_cons hspaces.1.ne_slash hcontent.clear ?_
      exact (isClear_append_of_forall_ne fun c hc => (hspaces.2 c hc).ne_slash).mpr hslash
  | nil =>
      have hlast := hfits.apart hcomment htrail
      rcases List.eq_nil_or_concat content with rfl | ⟨front, c, rfl⟩
      · exact hslash
      · rw [List.concat_eq_append] at hlast hcontent ⊢
        have hc : c ≠ '/' := by simpa using hlast
        have hfront : IsClear front := fun hslashes =>
          hcontent.clear (hslashes.trans (List.prefix_append front [c]).isInfix)
        rw [List.append_assoc]
        exact isClear_append_cons hc hfront hslash

/-- A margin is read over. -/
theorem shows_around (hfits : margin.Fits content) (hcontent : IsContent content) :
    Shows (dropCarriageReturn (margin.around content)) content margin.comment := by
  have hending := isBlank_of_mem_carriageReturns margin.ending_eq
  cases hcomment : margin.comment with
  | none =>
      have hline : margin.around content = margin.before content ++ margin.ending := by
        simp [Margin.around, Margin.remark, hcomment]
      have hwhole : IsClear (margin.around content) := by
        rw [hline]
        refine isClear_append_right (hfits.clear hcontent) fun c hc => ?_
        rw [margin.ending_eq c hc]
        decide
      have hclear : IsClear (dropCarriageReturn (margin.around content)) := by
        obtain ⟨back, hback, -⟩ := dropCarriageReturn_append (margin.around content)
        exact fun hslashes => hwhole (hslashes.trans ⟨[], back, by simpa using hback.symm⟩)
      refine ⟨_, by rw [splitComment, cutAtPair_of_isClear hclear]; rfl, ?_⟩
      calc trimBlanks (dropCarriageReturn (margin.around content))
          = trimBlanks (margin.before content ++ margin.ending) := by
            rw [trimBlanks_dropCarriageReturn, hline]
        _ = trimBlanks (margin.before content) := trimWhile_append_right hending _
        _ = content := hfits.trim hcontent
  | some comment =>
      have hclear := hfits.clear_slash hcontent (by simp [hcomment])
      have hline : margin.around content =
          margin.before content ++ '/' :: '/' :: (comment ++ margin.ending) := by
        simp [Margin.around, Margin.remark, hcomment]
      -- The second slash is no carriage return, so one can be taken off the comment only.
      have hdrop : dropCarriageReturn (margin.around content) =
          margin.before content ++ '/' :: '/' :: dropCarriageReturn (comment ++ margin.ending) := by
        have hslash := dropCarriageReturn_append_cons (c := '/') (by decide)
          (margin.before content ++ ['/']) (comment ++ margin.ending)
        rw [hline]
        simpa using hslash
      have htrim : trimBlanks (dropCarriageReturn (comment ++ margin.ending)) =
          trimBlanks comment :=
        (trimBlanks_dropCarriageReturn _).trans (trimWhile_append_right hending comment)
      refine ⟨margin.before content, ?_, hfits.trim hcontent⟩
      rw [hdrop, splitComment, cutAtPair_comment hclear]
      exact congrArg (fun comment => (margin.before content, some comment)) htrim

end GoAtlas.Manifest
