import GoAtlas.Proofs.Manifest.Grammar
import Mathlib.Data.List.Forall2

/-!
# What manifests say

The reader keeps what is known of the manifest and the block that it is in.  A block is left at the
end of its item, so the items of a manifest are read one after another, each from a state outside
blocks to another one (`readAll_item`), and the whole text by induction (`foldl_readLine_text`).

What comes out is what the items say together (`read?_text`): the last module path, the last
language version and every requirement in order.  A path loses the quotes at its ends, also those
that do not belong together.
-/

namespace GoAtlas.Manifest

variable {c : Char} {line word gap rest path : List Char} {comment : Option (List Char)}
  {state : State} {manifest : Manifest} {margin : Margin} {entry : Entry} {directive : Directive}
  {item : Item} {items : List Item}

/-! ## Lines -/

theorem readLine_blank (hshows : Shows line [] comment) : readLine state line = state := by
  obtain ⟨before, hsplit, hcontent⟩ := hshows
  rw [readLine, hsplit]
  simp [hcontent]

/-- A line outside blocks is read as its first word and the rest. -/
theorem readLine_directive (hshows : Shows line (word ++ (gap ++ rest)) comment)
    (hword : IsWord word) (hgap : ∀ c ∈ gap, IsSpace c) (hapart : gap = [] → rest = [])
    (hrest : trimBlanks rest = rest) :
    readLine { manifest } line = readDirective manifest word rest (comment.map trimBlanks) := by
  obtain ⟨before, hsplit, hcontent⟩ := hshows
  have hchars : ∀ c ∈ word, (!isBlank c) = true := by simpa using hword.blank
  have hend : ∀ c ∈ (gap ++ rest).head?, (!isBlank c) = false := by
    cases gap with
    | nil => simp [hapart rfl]
    | cons c gap =>
        intro d hd
        cases hd
        simp [(hgap c (List.mem_cons_self ..)).1]
  have hne : (word ++ (gap ++ rest)).isEmpty = false := by simp [hword.ne_nil]
  have htrim : trimBlanks (gap ++ rest) = rest :=
    (trimWhile_append_left (fun c hc => (hgap c hc).1) rest).trans hrest
  rw [readLine, hsplit]
  simp only [hcontent, hne, Bool.false_eq_true, if_false, takeWhile_append hchars hend,
    dropWhile_append hchars hend, htrim]

/-- The requirement that an entry and its comment denote. -/
def Entry.requirement (entry : Entry) (comment : Option (List Char)) : Requirement where
  path := String.ofList (unquotePath entry.path)
  version := String.ofList entry.version
  indirect := isIndirect (comment.map trimBlanks)

def requirements (entries : List (Entry × Option (List Char))) : List Requirement :=
  entries.map fun (entry, comment) => entry.requirement comment

theorem addRequirement_chars (hproper : entry.IsProper) (manifest : Manifest) :
    manifest.addRequirement entry.chars (comment.map trimBlanks) =
      { manifest with requires := manifest.requires ++ [entry.requirement comment] } := by
  have hwords : words entry.chars = [entry.path, entry.version] :=
    words_pair ⟨hproper.path.ne_nil, hproper.path.blank⟩
      ⟨hproper.gap.1, fun c hc => (hproper.gap.2 c hc).1⟩
      ⟨hproper.version.ne_nil, hproper.version.blank⟩
  rw [addRequirement, hwords]
  rfl

/-- An entry is no parenthesis, because it has two words. -/
theorem Entry.IsProper.ne_parenthesis (hproper : entry.IsProper) (c : Char) :
    entry.chars ≠ [c] := by
  intro heq
  have hpath := List.length_pos_of_ne_nil hproper.path.ne_nil
  have hversion := List.length_pos_of_ne_nil hproper.version.ne_nil
  have hlength := congrArg List.length heq
  simp only [Entry.chars, List.length_append, List.length_singleton] at hlength
  omega

theorem readLine_entry (hshows : Shows line entry.chars comment) (hproper : entry.IsProper) :
    readLine { manifest, block := .require } line =
      { manifest := { manifest with requires := manifest.requires ++ [entry.requirement comment] }
        block := .require } := by
  obtain ⟨before, hsplit, hcontent⟩ := hshows
  have hne : entry.chars.isEmpty = false := by simp [Entry.chars, hproper.path.ne_nil]
  rw [readLine, hsplit]
  simp only [hcontent, hne, Bool.false_eq_true, if_false, if_neg (hproper.ne_parenthesis ')'),
    addRequirement_chars hproper]

/-- A closing parenthesis ends any block. -/
theorem readLine_closing (hshows : Shows line [')'] comment) {block : Block}
    (hblock : block ≠ .none) : readLine { manifest, block } line = { manifest } := by
  obtain ⟨before, hsplit, hcontent⟩ := hshows
  rw [readLine, hsplit]
  cases block with
  | none => exact absurd rfl hblock
  | require => simp [hcontent]
  | other => simp [hcontent]

/-- A line that the reader takes for a closing parenthesis is one with a margin around it. -/
theorem closes_iff (hbreak : '\n' ∉ line) :
    Item.Closes line ↔ trimBlanks (splitComment (dropCarriageReturn line)).1 = [')'] := by
  constructor
  · rintro ⟨margin, hfits, rfl⟩
    obtain ⟨before, hsplit, htrim⟩ := shows_around hfits isContent_closing
    rw [hsplit]
    exact htrim
  -- A carriage return that was taken off goes to the blanks at the end or to the comment.
  intro htrim
  obtain ⟨back, hback, hreturns⟩ := dropCarriageReturn_append line
  generalize dropCarriageReturn line = start at htrim hback
  subst hback
  have hspace : ∀ c ∈ start ++ back, isBlank c = true → IsSpace c := fun c hc hblank =>
    ⟨hblank, fun heq => hbreak (heq ▸ hc)⟩
  cases hcut : cutAtPair '/' '/' start with
  | none =>
      rw [splitComment, hcut] at htrim
      obtain ⟨⟨indent, trail, rfl, hindent, htrail⟩, -⟩ := trimWhile_eq_iff.mp htrim
      refine ⟨{ indent, trail := trail ++ back }, ⟨?_, ?_, by simp, by simp⟩, ?_⟩
      · exact fun c hc => hspace c (by simp [hc]) (hindent c hc)
      · refine List.forall_mem_append.mpr ⟨fun c hc => hspace c (by simp [hc]) (htrail c hc), ?_⟩
        exact fun c hc => hspace c (by simp [hc]) (isBlank_of_mem_carriageReturns hreturns c hc)
      · simp [Margin.around, Margin.before, Margin.remark, Margin.ending]
  | some parts =>
      obtain ⟨before, comment⟩ := parts
      obtain rfl := cutAtPair_eq_some hcut
      rw [splitComment, hcut] at htrim
      obtain ⟨⟨indent, trail, rfl, hindent, htrail⟩, -⟩ := trimWhile_eq_iff.mp htrim
      refine ⟨{ indent, trail, comment := some (comment ++ back) }, ⟨?_, ?_, ?_, by simp⟩, ?_⟩
      · exact fun c hc => hspace c (by simp [hc]) (hindent c hc)
      · exact fun c hc => hspace c (by simp [hc]) (htrail c hc)
      · intro _ hcomment hmem
        cases hcomment
        exact hbreak (by simpa [List.mem_append] using Or.inr (Or.inr (List.mem_append.mp hmem)))
      · simp [Margin.around, Margin.before, Margin.remark, Margin.ending]

/-- Any line that closes no block is stepped over in a block that is stepped over. -/
theorem readLine_inner (hinner : Item.IsInner line) :
    readLine { manifest, block := .other } (dropCarriageReturn line) =
      { manifest, block := .other } := by
  have hopen : trimBlanks (splitComment (dropCarriageReturn line)).1 ≠ [')'] := fun htrim =>
    hinner.2 ((closes_iff hinner.1).mpr htrim)
  generalize dropCarriageReturn line = start at hopen
  cases hsplit : splitComment start with
  | mk before comment =>
      rw [hsplit] at hopen
      rw [readLine, hsplit]
      simp [hopen]

/-! ## Items -/

/-- Reads some lines from a state on. -/
def readAll (state : State) (lines : List (List Char)) : State :=
  lines.foldl (fun state line => readLine state (dropCarriageReturn line)) state

theorem readAll_append (state : State) (front back : List (List Char)) :
    readAll state (front ++ back) = readAll (readAll state front) back :=
  List.foldl_append

/-- What is known of a manifest after an item. -/
def Item.record (manifest : Manifest) (item : Item) : Manifest where
  module := (item.path?.map fun path => String.ofList (unquotePath path)).getD manifest.module
  goVersion := (item.version?.map String.ofList).or manifest.goVersion
  requires := manifest.requires ++ requirements item.entries

theorem readDirective_other (hunknown : word ∉ keywords) :
    readDirective manifest word rest comment =
      if rest.getLast? = some '(' then { manifest, block := .other } else { manifest } := by
  simp only [keywords, List.mem_cons, List.not_mem_nil, or_false, not_or] at hunknown
  rw [readDirective, if_neg hunknown.1, if_neg hunknown.2.1, if_neg hunknown.2.2]

/-- A directive of one line leaves no block open. -/
theorem readLine_chars (hproper : directive.IsProper)
    (hshows : Shows line directive.chars margin.comment) (manifest : Manifest) :
    readLine { manifest } line = { manifest := Item.record manifest (.line directive margin) } := by
  have hkeyword : ∀ {word gap rest : List Char}, word ∈ keywords → IsGap gap → IsContent rest →
      Shows line (word ++ (gap ++ rest)) margin.comment →
      readLine { manifest } line =
        readDirective manifest word rest (margin.comment.map trimBlanks) :=
    fun hword hgap hrest hshows => readLine_directive hshows (isWord_of_mem_keywords hword) hgap.2
      (fun hnil => absurd hnil hgap.1) hrest.trim
  cases directive with
  | module gap path =>
      rw [hkeyword (by decide) hproper.1 hproper.2.isContent hshows]
      simp [readDirective, Item.record, Item.path?, Item.version?, Item.entries, requirements]
  | go gap version =>
      rw [hkeyword (by decide) hproper.1 hproper.2.isContent hshows]
      simp [readDirective, Item.record, Item.path?, Item.version?, Item.entries, requirements]
  | require gap entry =>
      rw [hkeyword (by decide) hproper.1 hproper.2.isContent hshows]
      simp [readDirective, Item.record, Item.path?, Item.version?, Item.entries, requirements,
        hproper.2.ne_parenthesis, addRequirement_chars hproper.2]
  | other word gap rest =>
      obtain ⟨hother, hopen⟩ := hproper
      rw [readLine_directive hshows hother.first hother.spaces hother.apart hother.trim,
        readDirective_other hother.unknown, if_neg hopen]
      simp [Item.record, Item.path?, Item.version?, Item.entries, requirements]

/-- The entries of a block of requirements are added in order. -/
theorem readAll_entries {entries : List (Option Entry × Margin)}
    (hentries : ∀ line ∈ entries, (∀ entry ∈ line.1, entry.IsProper) ∧
      line.2.Fits (line.1.elim [] Entry.chars)) (manifest : Manifest) :
    readAll { manifest, block := .require } (entries.map Item.entryLine) =
      { manifest := { manifest with requires := manifest.requires ++ requirements (noted entries) }
        block := .require } := by
  induction entries generalizing manifest with
  | nil => simp [readAll, noted, requirements]
  | cons first entries ih =>
      obtain ⟨⟨hproper, hfits⟩, hmore⟩ := List.forall_mem_cons.mp hentries
      obtain ⟨entry, margin⟩ := first
      rw [List.map_cons, readAll, List.foldl_cons]
      cases entry with
      | none =>
          have hline : readLine { manifest, block := .require }
              (dropCarriageReturn (Item.entryLine (none, margin))) =
                { manifest, block := .require } :=
            readLine_blank (shows_around hfits isContent_nil)
          rw [hline]
          exact ih hmore manifest
      | some entry =>
          have hproper : entry.IsProper := hproper entry rfl
          have hline : readLine { manifest, block := .require }
              (dropCarriageReturn (Item.entryLine (some entry, margin))) =
                { manifest := { manifest with
                    requires := manifest.requires ++ [entry.requirement margin.comment] }
                  block := .require } :=
            readLine_entry (shows_around hfits hproper.isContent) hproper
          rw [hline]
          refine (ih hmore _).trans ?_
          simp [noted, requirements]

/-- The lines of a block that is stepped over. -/
theorem readAll_inner {inner : List (List Char)}
    (hinner : ∀ line ∈ inner, Item.IsInner line) (manifest : Manifest) :
    readAll { manifest, block := .other } inner = { manifest, block := .other } := by
  induction inner with
  | nil => rfl
  | cons line inner ih =>
      obtain ⟨hline, hinner⟩ := List.forall_mem_cons.mp hinner
      rw [readAll, List.foldl_cons, readLine_inner hline]
      exact ih hinner

/-- An item is read from its first line to its last one, and no block is open after it. -/
theorem readAll_item (hproper : item.IsProper) (manifest : Manifest) :
    readAll { manifest } item.lines = { manifest := item.record manifest } := by
  cases item with
  | blank margin =>
      rw [Item.lines, readAll, List.foldl_cons, readLine_blank (shows_around hproper isContent_nil)]
      simp [Item.record, Item.path?, Item.version?, Item.entries, requirements]
  | line directive margin =>
      exact readLine_chars hproper.1 (shows_around hproper.2 hproper.1.isContent) manifest
  | requires gap opening entries closing =>
      obtain ⟨hgap, hopening, hclosing, hentries⟩ := hproper
      have hopen : readLine { manifest }
          (dropCarriageReturn (opening.around ("require".toList ++ (gap ++ ['('])))) =
            { manifest, block := .require } :=
        readLine_directive (shows_around hopening (isContent_opening hgap))
          (isWord_of_mem_keywords (by decide)) hgap.2 (fun hnil => absurd hnil hgap.1) (by decide)
      -- The block stays open over its entries, and the last line closes it.
      rw [Item.lines, List.cons_append, readAll, List.foldl_cons, hopen]
      refine (readAll_append _ _ _).trans ?_
      rw [readAll_entries hentries]
      have hblock : Block.require ≠ .none := by decide
      refine (readLine_closing (shows_around hclosing isContent_closing) hblock).trans ?_
      simp [Item.record, Item.path?, Item.version?, Item.entries, requirements]
  | block word gap rest opening inner closing =>
      obtain ⟨hother, hlast, hopening, hclosing, hinner⟩ := hproper
      have hopen : readLine { manifest }
          (dropCarriageReturn (opening.around (word ++ (gap ++ rest)))) =
            { manifest, block := .other } := by
        rw [readLine_directive (shows_around hopening hother.content) hother.first hother.spaces
          hother.apart hother.trim, readDirective_other hother.unknown, if_pos hlast]
      rw [Item.lines, List.cons_append, readAll, List.foldl_cons, hopen]
      refine (readAll_append _ _ _).trans ?_
      rw [readAll_inner hinner]
      have hblock : Block.other ≠ .none := by decide
      refine (readLine_closing (shows_around hclosing isContent_closing) hblock).trans ?_
      simp [Item.record, Item.path?, Item.version?, Item.entries, requirements]

theorem readAll_items (hproper : ∀ item ∈ items, item.IsProper) (manifest : Manifest) :
    readAll { manifest } (items.flatMap Item.lines) =
      { manifest := items.foldl Item.record manifest } := by
  induction items generalizing manifest with
  | nil => rfl
  | cons item items ih =>
      obtain ⟨hitem, hproper⟩ := List.forall_mem_cons.mp hproper
      rw [List.flatMap_cons, readAll_append, readAll_item hitem, ih hproper, List.foldl_cons]

theorem Item.IsProper.not_mem (hproper : item.IsProper) : ∀ line ∈ item.lines, '\n' ∉ line := by
  cases item with
  | blank margin => simpa [Item.lines] using Margin.Fits.not_mem hproper isContent_nil
  | line directive margin => simpa [Item.lines] using hproper.2.not_mem hproper.1.isContent
  | requires gap opening entries closing =>
      obtain ⟨hgap, hopening, hclosing, hentries⟩ := hproper
      have hinner : ∀ line ∈ entries, '\n' ∉ entryLine line := by
        rintro ⟨entry, margin⟩ hmem
        obtain ⟨hentry, hfits⟩ := hentries _ hmem
        cases entry with
        | none => exact hfits.not_mem isContent_nil
        | some entry => exact hfits.not_mem (hentry entry rfl).isContent
      simp only [Item.lines, List.cons_append, List.forall_mem_cons, List.forall_mem_append,
        List.forall_mem_map]
      exact ⟨hopening.not_mem (isContent_opening hgap), hinner,
        hclosing.not_mem isContent_closing, by simp⟩
  | block word gap rest opening inner closing =>
      obtain ⟨hother, -, hopening, hclosing, hinner⟩ := hproper
      simp only [Item.lines, List.cons_append, List.forall_mem_cons, List.forall_mem_append]
      exact ⟨hopening.not_mem hother.content, fun line hline => (hinner line hline).1,
        hclosing.not_mem isContent_closing, by simp⟩

/-- A text that is made of items is read item by item. -/
theorem foldl_readLine_text (hproper : ∀ item ∈ items, item.IsProper) :
    (GoAtlas.lines (text items)).foldl readLine {} =
      { manifest := items.foldl Item.record {} } := by
  have hlines : ∀ line ∈ items.flatMap Item.lines, '\n' ∉ line := by
    intro line hline
    obtain ⟨item, hitem, hline⟩ := List.mem_flatMap.mp hline
    exact (hproper item hitem).not_mem line hline
  rw [text, lines_flatMap hlines, List.foldl_map]
  exact readAll_items hproper {}

/-! ## What the items say -/

/-- A quote that can stand around a path. -/
def IsQuote (c : Char) : Prop := c = '"' ∨ c = '`'

/-- A path as it is written, and what is left of it without the quotes at its ends. -/
structure Unquotes (path : List Char) (inner : String) : Prop where
  written : ∃ front back, path = front ++ (inner.toList ++ back) ∧ ∀ c ∈ front ++ back, IsQuote c
  head : ∀ c ∈ inner.toList.head?, ¬ IsQuote c
  last : ∀ c ∈ inner.toList.getLast?, ¬ IsQuote c

/-- A comment that marks a requirement as indirect: one of its parts between semicolons is the
word `indirect`, with or without blanks around it. -/
def MarksIndirect (comment : List Char) : Prop :=
  ∃ parts, comment = [';'].intercalate parts ∧ (∀ part ∈ parts, ';' ∉ part) ∧
    ∃ before after, before ++ ("indirect".toList ++ after) ∈ parts ∧
      ∀ c ∈ before ++ after, isBlank c = true

/-- An entry with its comment, and the requirement that it denotes. -/
structure Denotes (entry : Entry × Option (List Char)) (requirement : Requirement) : Prop where
  path : Unquotes entry.1.path requirement.path
  version : requirement.version = String.ofList entry.1.version
  indirect : requirement.indirect = true ↔ ∃ comment ∈ entry.2, MarksIndirect comment

/-- What the items of a manifest say together. -/
structure Says (items : List Item) (manifest : Manifest) : Prop where
  /-- The module path is the last one given. -/
  module : ∃ path ∈ (items.filterMap Item.path?).getLast?, Unquotes path manifest.module
  /-- The language version is the last one given. -/
  goVersion : manifest.goVersion = (items.filterMap Item.version?).getLast?.map String.ofList
  /-- Every entry denotes a requirement, in order. -/
  requires : List.Forall₂ Denotes (items.flatMap Item.entries) manifest.requires

theorem unquotes_iff {inner : String} :
    Unquotes path inner ↔ trimWhile (fun c => c == '"' || c == '`') path = inner.toList := by
  have hquote : ∀ c, (c == '"' || c == '`') = true ↔ IsQuote c := by simp [IsQuote]
  have hother : ∀ c, (c == '"' || c == '`') = false ↔ ¬ IsQuote c := by simp [IsQuote]
  simp only [trimWhile_eq_iff, hquote, hother]
  constructor
  · rintro ⟨⟨front, back, hpath, hquotes⟩, hhead, hlast⟩
    obtain ⟨hfront, hback⟩ := List.forall_mem_append.mp hquotes
    exact ⟨⟨front, back, hpath, hfront, hback⟩, hhead, hlast⟩
  · rintro ⟨⟨front, back, hpath, hfront, hback⟩, hhead, hlast⟩
    exact ⟨⟨front, back, hpath, List.forall_mem_append.mpr ⟨hfront, hback⟩⟩, hhead, hlast⟩

theorem unquotes_unquotePath (hword : IsWord path) :
    Unquotes path (String.ofList (unquotePath path)) := by
  rw [unquotes_iff, unquotePath, hword.isContent.trim, String.toList_ofList]

theorem ne_semicolon {blanks : List Char} (hblanks : ∀ c ∈ blanks, isBlank c = true) :
    ∀ c ∈ blanks, (c == ';') = false := by
  intro c hc
  rw [beq_eq_false_iff_ne]
  rintro rfl
  exact absurd (hblanks ';' hc) (by decide)

/-- Blanks before a comment do not matter, because each part of it is trimmed. -/
theorem isIndirect_append_left {front : List Char} (hfront : ∀ c ∈ front, isBlank c = true)
    (text : List Char) : isIndirect (some (front ++ text)) = isIndirect (some text) := by
  obtain ⟨first, parts, htext, happend⟩ := splitWhere_forall_not_append (ne_semicolon hfront) text
  have hfirst : trimBlanks (front ++ first) = trimBlanks first := trimWhile_append_left hfront first
  simp only [isIndirect, htext, happend, List.any_cons, hfirst]

theorem isIndirect_append_right {back : List Char} (hback : ∀ c ∈ back, isBlank c = true)
    (text : List Char) : isIndirect (some (text ++ back)) = isIndirect (some text) := by
  obtain ⟨before, last, htext, happend⟩ := splitWhere_append_of_forall_not text (ne_semicolon hback)
  have hlast : trimBlanks (last ++ back) = trimBlanks last := trimWhile_append_right hback last
  simp only [isIndirect, htext, happend, List.any_append, List.any_cons, hlast]

theorem isIndirect_iff {comment : List Char} :
    isIndirect (some comment) = true ↔ MarksIndirect comment := by
  simp only [isIndirect, List.any_eq_true, beq_iff_eq]
  constructor
  · rintro ⟨part, hpart, htrim⟩
    obtain ⟨⟨before, after, rfl, hbefore, hafter⟩, -⟩ := trimWhile_eq_iff.mp htrim
    refine ⟨splitWhere (· == ';') comment, (intercalate_splitWhere ';' comment).symm, ?_,
      before, after, hpart, List.forall_mem_append.mpr ⟨hbefore, hafter⟩⟩
    intro part hpart hmem
    exact absurd (not_of_mem_splitWhere hpart ';' hmem) (by decide)
  · rintro ⟨parts, rfl, hfree, before, after, hpart, hblanks⟩
    obtain ⟨hbefore, hafter⟩ := List.forall_mem_append.mp hblanks
    have hne : parts ≠ [] := List.ne_nil_of_mem hpart
    rw [splitWhere_intercalate hne hfree]
    exact ⟨_, hpart, trimWhile_append hbefore hafter (by decide) (by decide)⟩

theorem denotes_requirement (hproper : entry.IsProper) (comment : Option (List Char)) :
    Denotes (entry, comment) (entry.requirement comment) where
  path := unquotes_unquotePath hproper.path
  version := rfl
  indirect := by
    cases comment with
    | none => simp [Entry.requirement, isIndirect]
    | some comment =>
        -- The comment is trimmed before it is cut at semicolons, and each part once more.
        obtain ⟨front, back, hcomment, hfront, hback, -⟩ := exists_trimWhile isBlank comment
        have htrim : isIndirect (some (trimBlanks comment)) = isIndirect (some comment) := by
          calc isIndirect (some (trimBlanks comment))
              = isIndirect (some (trimBlanks comment ++ back)) :=
                (isIndirect_append_right hback _).symm
            _ = isIndirect (some (front ++ (trimBlanks comment ++ back))) :=
                (isIndirect_append_left hfront _).symm
            _ = isIndirect (some comment) := by rw [trimBlanks, ← hcomment]
        simp [Entry.requirement, htrim, isIndirect_iff]

/-- Nothing is left of a path that is made of quotes, and of no other one. -/
theorem Unquotes.eq_empty_iff {inner : String} (hpath : Unquotes path inner) :
    inner = "" ↔ ∀ c ∈ path, IsQuote c := by
  obtain ⟨⟨front, back, rfl, hquotes⟩, hhead, -⟩ := hpath
  constructor
  · rintro rfl
    simpa using hquotes
  · intro hall
    rw [← String.toList_eq_nil_iff]
    cases hinner : inner.toList with
    | nil => rfl
    | cons c rest => exact absurd (hall c (by simp [hinner])) (hhead c (by simp [hinner]))

theorem module_foldl_record (items : List Item) (manifest : Manifest) :
    (items.foldl Item.record manifest).module =
      ((items.filterMap Item.path?).getLast?.map fun path => String.ofList (unquotePath path)).getD
        manifest.module := by
  induction items generalizing manifest with
  | nil => rfl
  | cons item items ih =>
      rw [List.foldl_cons, ih]
      cases hpath : item.path? with
      | none =>
          rw [List.filterMap_cons_none hpath, Item.record, hpath]
          rfl
      | some path =>
          rw [List.filterMap_cons_some hpath, List.getLast?_cons, Item.record, hpath]
          cases (items.filterMap Item.path?).getLast? <;> rfl

theorem goVersion_foldl_record (items : List Item) (manifest : Manifest) :
    (items.foldl Item.record manifest).goVersion =
      ((items.filterMap Item.version?).getLast?.map String.ofList).or manifest.goVersion := by
  induction items generalizing manifest with
  | nil => rfl
  | cons item items ih =>
      rw [List.foldl_cons, ih]
      cases hversion : item.version? with
      | none =>
          rw [List.filterMap_cons_none hversion, Item.record, hversion]
          rfl
      | some version =>
          rw [List.filterMap_cons_some hversion, List.getLast?_cons, Item.record, hversion]
          cases (items.filterMap Item.version?).getLast? <;> rfl

theorem requires_foldl_record (items : List Item) (manifest : Manifest) :
    (items.foldl Item.record manifest).requires =
      manifest.requires ++ requirements (items.flatMap Item.entries) := by
  induction items generalizing manifest with
  | nil => simp [requirements]
  | cons item items ih =>
      rw [List.foldl_cons, ih]
      simp [Item.record, requirements]

theorem Item.IsProper.isWord (hproper : item.IsProper) (hpath : item.path? = some path) :
    IsWord path := by
  cases item with
  | line directive margin =>
      cases directive with
      | module gap path' =>
          cases hpath
          exact hproper.1.2
      | _ => cases hpath
  | _ => cases hpath

theorem Item.IsProper.forall_entries (hproper : item.IsProper) :
    ∀ entry ∈ item.entries, entry.1.IsProper := by
  cases item with
  | line directive margin =>
      cases directive with
      | require gap entry => simpa [Item.entries] using hproper.1.2
      | _ => simp [Item.entries]
  | requires gap opening entries closing =>
      rintro ⟨entry, comment⟩ hmem
      obtain ⟨⟨entry', margin⟩, hline, hnoted⟩ := List.mem_filterMap.mp hmem
      obtain ⟨entry'', rfl, heq⟩ := Option.map_eq_some_iff.mp hnoted
      cases heq
      exact (hproper.2.2.2 _ hline).1 _ rfl
  | _ => simp [Item.entries]

/-- A manifest is read as its items say.  There is none exactly if they give no module path, or a
last one that is made of quotes. -/
theorem read?_text (hproper : ∀ item ∈ items, item.IsProper) :
    (read? (String.ofList (text items)) = none ↔
      ∀ path ∈ (items.filterMap Item.path?).getLast?, ∀ c ∈ path, IsQuote c) ∧
    ∀ manifest, read? (String.ofList (text items)) = some manifest → Says items manifest := by
  have hread : read? (String.ofList (text items)) =
      if (items.foldl Item.record {}).module.isEmpty then none
      else some (items.foldl Item.record {}) := by
    rw [read?, String.toList_ofList, foldl_readLine_text hproper]
  have hversion : (items.foldl Item.record {}).goVersion =
      (items.filterMap Item.version?).getLast?.map String.ofList := by
    rw [goVersion_foldl_record]
    exact Option.or_none
  have hrequires : List.Forall₂ Denotes (items.flatMap Item.entries)
      (items.foldl Item.record {}).requires := by
    rw [requires_foldl_record]
    refine List.forall₂_map_right_iff.mpr (List.forall₂_same.mpr fun entry hmem => ?_)
    obtain ⟨item, hitem, hentry⟩ := List.mem_flatMap.mp hmem
    exact denotes_requirement ((hproper item hitem).forall_entries entry hentry) entry.2
  have hmodule := module_foldl_record items {}
  -- No path is blank, so nothing but quotes at its ends can be missing from the last one.
  cases hlast : (items.filterMap Item.path?).getLast? with
  | none =>
      rw [hlast] at hmodule
      have hnone : read? (String.ofList (text items)) = none := by
        rw [hread, hmodule]
        rfl
      simp [hnone]
  | some path =>
      rw [hlast] at hmodule
      have hpath : IsWord path := by
        obtain ⟨item, hitem, hgives⟩ := List.mem_filterMap.mp (List.mem_of_getLast? hlast)
        exact (hproper item hitem).isWord hgives
      have hunquotes : Unquotes path (items.foldl Item.record {}).module := by
        rw [hmodule]
        exact unquotes_unquotePath hpath
      constructor
      · have hempty := hunquotes.eq_empty_iff
        rw [← String.isEmpty_iff] at hempty
        simp [hread, hempty]
      · intro manifest hsome
        rw [hread] at hsome
        split at hsome
        case isTrue => cases hsome
        case isFalse =>
          cases hsome
          exact ⟨⟨path, hlast, hunquotes⟩, hversion, hrequires⟩

/-! ## A sample -/

instance : DecidablePred Item.IsInner := fun line =>
  decidable_of_iff
    ('\n' ∉ line ∧ trimBlanks (splitComment (dropCarriageReturn line)).1 ≠ [')'])
    (and_congr_right fun hbreak => not_congr (closes_iff hbreak).symm)

instance : DecidablePred Item.IsProper
  | .blank margin => inferInstanceAs (Decidable (margin.Fits []))
  | .line _ _ | .requires _ _ _ _ | .block _ _ _ _ _ _ => inferInstanceAs (Decidable (_ ∧ _))

/-- A manifest with blocks, comments and both ends of lines. -/
def sample : List Item :=
  [.line (.module [' '] "`a/b`".toList) { trail := [' '], comment := some " the path".toList },
    .blank { comment := some "(".toList, carriageReturn := true },
    .requires [' '] { carriageReturn := true }
      [(none, {}), (some ⟨"\"c\"".toList, [' '], "v1".toList⟩,
        { indent := ['\t'], trail := [' '], comment := some "x; indirect ".toList })] {},
    .block "replace".toList [' '] ['('] {} ["module x".toList] {},
    .line (.other "exclude".toList [' '] "d v2".toList) {},
    .line (.go [' '] "1.21".toList) {}]

/-- What the sample says. -/
def sampleManifest : Manifest where
  module := "a/b"
  goVersion := some "1.21"
  requires := [⟨"c", "v1", true⟩]

theorem read?_text_sample :
    (∀ item ∈ sample, item.IsProper) ∧
      read? (String.ofList (text sample)) = some sampleManifest ∧ Says sample sampleManifest := by
  have hproper : ∀ item ∈ sample, item.IsProper := by decide +kernel
  have hread : read? (String.ofList (text sample)) = some sampleManifest := by decide +kernel
  exact ⟨hproper, hread, (read?_text hproper).2 _ hread⟩

/-- A path between two quotes loses the quotes at its own ends as well, and two slashes begin a
comment without a blank before them, here one that leaves a block open. -/
theorem read?_loose :
    read? "module `\"a`\n" = some { module := "a" } ∧
      read? "module `\"a`\n" ≠ some { module := "\"a" } ∧
      read? "replace a => (//b\nmodule m\n" = none := by
  decide +kernel

end GoAtlas.Manifest
