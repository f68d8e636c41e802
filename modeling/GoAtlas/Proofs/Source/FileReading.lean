import GoAtlas.Proofs.Source.DeclReading

/-!
# Files are read back

A file whose tree is a reading of the words that it was spelled out in is read back as what its
layout declares.  What is said of the parser is just this: the text has a tree, the tree is derived
by the grammar, and its words are the words of the layout.
-/

namespace GoAtlas.Source

variable {rest rest' words : List Word}

/-! ## Groups of declarations -/

theorem TypeSpecPhrase.start {decls : List Decl} (hspec : TypeSpecPhrase words decls) :
    ∃ word more, words = word :: more ∧ word.1 ∈ specStarts := by
  cases hspec <;> exact ⟨_, _, rfl, by simp [specStarts]⟩

theorem ConstSpecPhrase.start {decls : List Decl} (hspec : ConstSpecPhrase words decls) :
    ∃ word more, words = word :: more ∧ word.1 ∈ specStarts := by
  cases hspec
  exact ⟨_, _, rfl, by simp [specStarts]⟩

theorem ImportSpecPhrase.start {imports : List ImportDecl}
    (hspec : ImportSpecPhrase words imports) :
    ∃ word more, words = word :: more ∧ word.1 ∈ specStarts := by
  have hmarks : ∀ mark ∈ [Token.dot, .underscore, .identifier], mark ∈ specStarts := by decide
  cases hspec with
  | plain htoken => exact ⟨_, _, rfl, List.mem_append_right _ htoken⟩
  | named hmark _ => exact ⟨_, _, rfl, hmarks _ hmark⟩

theorem importWords_start {decl : ImportDecl} (hplain : decl.isPlain = true) :
    ∃ word more, decl.words = word :: more ∧ word.1 ∈ specStarts := by
  obtain ⟨path, localName⟩ := decl
  cases localName with
  | none =>
      have hpath : literalToken path ∈ stringTokens := by
        simpa [ImportDecl.isPlain, stringTokens] using hplain
      exact ⟨_, _, rfl, List.mem_append_right _ hpath⟩
  | some name =>
      have hmark : ImportDecl.nameToken name ∈ specStarts := by
        unfold ImportDecl.nameToken
        split_ifs <;> decide
      exact ⟨_, _, rfl, hmark⟩

theorem readsBack_imports {group : SpecGroup ImportDecl}
    (hplain : ∀ spec ∈ group.specs, spec.isPlain = true) :
    ReadsBack terminators (GroupPhrase ImportSpecPhrase) (SpecGroup.words ImportDecl.words)
      (fun entries group => entries = group.specs.map id) group :=
  readsBack_group (fun spec hspec => readsBack_importSpec (hplain spec hspec))
    (fun _ _ hphrase => hphrase.start) (fun spec hspec => importWords_start (hplain spec hspec))

theorem readsBack_types {group : SpecGroup TypeDecl}
    (hplain : ∀ spec ∈ group.specs, spec.expr.isPlain = true) :
    ReadsBack terminators (GroupPhrase TypeSpecPhrase) (SpecGroup.words TypeDecl.words)
      (fun entries group => entries = group.specs.map .type) group :=
  readsBack_group (fun spec hspec => readsBack_typeSpec (hplain spec hspec))
    (fun _ _ hphrase => hphrase.start) (fun _ _ => ⟨_, _, rfl, by simp [specStarts]⟩)

theorem readsBack_consts {group : SpecGroup ConstDecl}
    (hplain : ∀ spec ∈ group.specs, spec.isPlain = true) :
    ReadsBack terminators (GroupPhrase ConstSpecPhrase) (SpecGroup.words ConstDecl.words)
      (fun entries group => entries = group.specs.map .const) group :=
  readsBack_group (fun spec hspec => readsBack_constSpec (hplain spec hspec))
    (fun _ _ hphrase => hphrase.start) (fun _ _ => ⟨_, _, rfl, by simp [specStarts]⟩)

/-! ## Functions -/

/-- The body of a function with an empty body is that. -/
theorem body_unique (hbody : BodyPhrase words) (hwords : words ++ rest = braceWords [] ++ rest')
    (hrest : Stops terminators rest) : rest = rest' := by
  simp only [braceWords, List.nil_append, List.cons_append] at hwords
  cases hbody with
  | none =>
      rw [List.nil_append] at hwords
      subst hwords
      exact absurd hrest (not_stops (by decide))
  | empty =>
      cases hwords
      rfl
  | statements hword =>
      simp only [List.cons_append, List.cons.injEq] at hwords
      exact absurd (congrArg Prod.fst hwords.2.1) hword

theorem func_unique {name : String} {decl : FuncDecl} {params results : List FieldDecl}
    {body : List Word} (hplain : (TypeExpr.func decl.params decl.results).isPlain = true)
    (hsignature : SignaturePhrase words params results) (hbody : BodyPhrase body)
    (hwords : (.identifier, name) :: (words ++ (body ++ rest)) =
      (.identifier, decl.name) :: ((TypeExpr.func decl.params decl.results).words.tail ++
        (braceWords [] ++ rest')))
    (hrest : Stops terminators rest) :
    ({ name, params, results } : FuncDecl) = decl ∧ rest = rest' := by
  obtain ⟨declName, declParams, declResults⟩ := decl
  simp only [List.cons.injEq, Prod.mk.injEq, true_and] at hwords
  obtain ⟨rfl, hwords⟩ := hwords
  have hstops : Stops typeStops (body ++ rest) := by
    have hsubset : terminators ⊆ typeStops := by decide
    have hbrace : Token.openBrace ∈ typeStops := by decide
    cases hbody with
    | none => exact hrest.mono hsubset
    | empty => exact stops_cons.mpr hbrace
    | statements _ => exact stops_cons.mpr hbrace
  obtain ⟨hfunc, hafter⟩ := reads_type _ hplain _ _ _ _
    (@TypePhrase.func "func" _ _ _ hsignature) (congrArg (List.cons (.funcWord, "func")) hwords)
    hstops (stops_cons.mpr (by decide))
  cases hfunc
  exact ⟨rfl, body_unique hbody hafter hrest⟩

/-! ## Items -/

/-- A spelled item is read back as what it does to a file. -/
theorem readsBack_item {item : FileItem} (hplain : item.isPlain = true) :
    ReadsBack terminators ItemPhrase FileItem.words
      (fun effect item => effect = (FileItem.addTo · item)) item := by
  intro words effect rest rest' hphrase hwords hrest hrest'
  cases item with
  | imports group =>
      have hgroup : ∀ spec ∈ group.specs, spec.isPlain = true := List.all_eq_true.mp hplain
      simp only [FileItem.words, List.cons_append] at hwords
      cases hphrase with
      | imports hphrase =>
          obtain ⟨rfl, hafter⟩ := readsBack_imports hgroup _ _ _ _ hphrase
            (List.cons.inj hwords).2 hrest hrest'
          exact ⟨by simp [FileItem.addTo], hafter⟩
      | other hword =>
          cases (List.cons.inj hwords).1
          exact absurd (by decide) hword
      | _ => simp at hwords
  | types group =>
      have hgroup : ∀ spec ∈ group.specs, spec.expr.isPlain = true := List.all_eq_true.mp hplain
      simp only [FileItem.words, List.cons_append] at hwords
      cases hphrase with
      | types hphrase =>
          obtain ⟨rfl, hafter⟩ := readsBack_types hgroup _ _ _ _ hphrase
            (List.cons.inj hwords).2 hrest hrest'
          exact ⟨rfl, hafter⟩
      | other hword =>
          cases (List.cons.inj hwords).1
          exact absurd (by decide) hword
      | _ => simp at hwords
  | consts group =>
      have hgroup : ∀ spec ∈ group.specs, spec.isPlain = true := List.all_eq_true.mp hplain
      simp only [FileItem.words, List.cons_append] at hwords
      cases hphrase with
      | consts hphrase =>
          obtain ⟨rfl, hafter⟩ := readsBack_consts hgroup _ _ _ _ hphrase
            (List.cons.inj hwords).2 hrest hrest'
          exact ⟨rfl, hafter⟩
      | other hword =>
          cases (List.cons.inj hwords).1
          exact absurd (by decide) hword
      | _ => simp at hwords
  | func decl =>
      simp only [FileItem.words, FuncDecl.words, List.cons_append, List.append_assoc] at hwords
      cases hphrase with
      | func hsignature hbody =>
          rw [List.cons_append, List.cons_append, List.append_assoc] at hwords
          obtain ⟨rfl, hafter⟩ := func_unique hplain hsignature hbody (List.cons.inj hwords).2 hrest
          exact ⟨rfl, hafter⟩
      | genericFunc => simp [TypeExpr.words, parenWords] at hwords
      | other hword =>
          cases (List.cons.inj hwords).1
          exact absurd (by decide) hword
      | _ => simp at hwords

/-- The words of a line of a layout, and what it does to a file. -/
def lines (layout : Layout) : List (List Word × (GoFile → GoFile)) :=
  ([(.packageWord, "package"), (.identifier, layout.package)],
      fun file => { file with package := layout.package }) ::
    layout.items.map fun item => (item.words, (FileItem.addTo · item))

/-- A line that is read back for itself and starts as an item does. -/
structure ReadsLine (line : List Word × (GoFile → GoFile)) : Prop where
  reads : ReadsBack terminators ItemPhrase Prod.fst (fun effect line => effect = line.2) line
  starts : ∃ word more, line.1 = word :: more ∧ word.1 ∈ itemStarts

theorem readsLine_of_mem_lines {layout : Layout} (hplain : layout.isPlain = true) :
    ∀ line ∈ lines layout, ReadsLine line := by
  refine List.forall_mem_cons.mpr ⟨⟨?_, _, _, rfl, by decide⟩, ?_⟩
  · intro words effect rest rest' hphrase hwords _ _
    cases hphrase with
    | package =>
        cases hwords
        exact ⟨rfl, rfl⟩
    | other hword =>
        cases (List.cons.inj hwords).1
        exact absurd (by decide) hword
    | _ => simp at hwords
  · intro line hline
    obtain ⟨item, hitem, rfl⟩ := List.mem_map.mp hline
    refine ⟨readsBack_item (List.all_eq_true.mp hplain item hitem), ?_⟩
    cases item <;> exact ⟨_, _, rfl, by simp [itemStarts]⟩

theorem ItemPhrase.start {effect : GoFile → GoFile} (hphrase : ItemPhrase words effect) :
    ∃ word more, words = word :: more ∧ word.1 ∉ ([] : List Token) := by
  cases hphrase <;> exact ⟨_, _, rfl, List.not_mem_nil⟩

/-- The items of a file do what the lines do whose words they have, if each line is read back. -/
theorem effects_unique {lines : List (List Word × (GoFile → GoFile))}
    {items : List (List Word)} {effects : List (GoFile → GoFile)}
    (hlines : ∀ line ∈ lines, ReadsLine line)
    (hwords : Separated terminators items (lineWords (lines.map (·.1))))
    (heffects : List.Forall₂ ItemPhrase items effects) : effects = lines.map (·.2) := by
  obtain ⟨hsame, -⟩ := lines_unique (fun line hline => (hlines line hline).reads)
    (fun _ _ hphrase => hphrase.start)
    (fun line hline => starts_apart (hlines line hline).starts (by decide))
    (by decide) hwords heffects rfl stops_nil stops_nil
  have hmap := List.forall₂_map_right_iff.mpr hsame
  rwa [List.forall₂_eq_eq_eq] at hmap

theorem lineWords_lines (layout : Layout) :
    lineWords ((lines layout).map (·.1)) = layout.words := by
  simp [Layout.words, lines, Function.comp_def]

/-- What the lines of a layout do, one after the other, is what the layout declares. -/
theorem foldl_lines (layout : Layout) :
    ((lines layout).map (·.2)).foldl (fun file effect => effect file) {} = layout.file := by
  simp [lines, Layout.file, List.foldl_map]

end GoAtlas.Source

namespace GoAtlas

open Source

/-- A text whose lines are read back one by one is read as what they do, one after the other, when
the tree of the text is derived by the grammar from the words of the lines. -/
theorem GoFile.read_eq_foldl {source : String} {lines : List (List Word × (GoFile → GoFile))}
    {tree : Tree} (hlines : ∀ line ∈ lines, ReadsLine line)
    (hparse : Tree.ofText? source.toList = some tree) (hreading : tree.isReading = true)
    (hwords : tree.words = lineWords (lines.map (·.1))) :
    GoFile.read source = (lines.map (·.2)).foldl (fun file effect => effect file) {} := by
  obtain ⟨items, effects, hseparated, hphrases, hfold⟩ := Tree.file_means hreading
  rw [hwords] at hseparated
  have heffects := effects_unique hlines hseparated hphrases
  unfold GoFile.read
  rw [hparse]
  calc
    (Tree.partsOf tree.parts).foldl addPart {}
    _ = effects.foldl (fun file effect => effect file) {} := hfold
    _ = (lines.map (·.2)).foldl (fun file effect => effect file) {} := by rw [heffects]

/-- What a layout spells is read as what it declares. -/
theorem Layout.read_eq_file {layout : Layout} {tree : Tree} (hplain : layout.isPlain = true)
    (hparse : Tree.ofText? layout.source.toList = some tree) (hreading : tree.isReading = true)
    (hwords : tree.words = layout.words) : GoFile.read layout.source = layout.file := by
  calc GoFile.read layout.source
    _ = ((Source.lines layout).map (·.2)).foldl (fun file effect => effect file) {} :=
        GoFile.read_eq_foldl (readsLine_of_mem_lines hplain) hparse hreading
          (hwords.trans (lineWords_lines layout).symm)
    _ = layout.file := foldl_lines layout

/-- A file that is spelled out in Go, one specification for each name and in any layout, is read
back as it is, when the tree of the text is derived by the grammar from the words spelled. -/
theorem GoFile.read_source {file : GoFile} {layout : Layout} {tree : Tree}
    (hfile : layout.file = file) (hplain : layout.isPlain = true)
    (hparse : Tree.ofText? layout.source.toList = some tree) (hreading : tree.isReading = true)
    (hwords : tree.words = layout.words) : GoFile.read layout.source = file := by
  calc GoFile.read layout.source
    _ = layout.file := Layout.read_eq_file hplain hparse hreading hwords
    _ = file := hfile

/-- A type and two constants in a group, of which the second repeats the first. -/
def Layout.grouped : Layout where
  package := "p"
  items :=
    [.types (.single { name := "T", expr := .array (.selector "r" "C") }),
      .consts (.block [{ name := "X", type := none, values := [.literal "-1"] },
        { name := "Y", type := none, values := [] }])]

theorem GoFile.read_source_grouped :
    Layout.grouped.isPlain = true ∧ GoFile.read Layout.grouped.source = Layout.grouped.file := by
  have hplain : Layout.grouped.isPlain = true := by decide +kernel
  have hparsed : (Tree.ofText? Layout.grouped.source.toList).any (fun tree =>
      tree.isReading && tree.words == Layout.grouped.words) = true := by decide +kernel
  obtain ⟨tree, hparse, htree⟩ := (Option.any_eq_true _ _).mp hparsed
  rw [Bool.and_eq_true, beq_iff_eq] at htree
  exact ⟨hplain, GoFile.read_source rfl hplain hparse htree.1 htree.2⟩

/-- The layout of a file with its declarations one by one is read back. -/
theorem GoFile.read_layout {file : GoFile} {tree : Tree} (hplain : file.layout.isPlain = true)
    (hparse : Tree.ofText? file.layout.source.toList = some tree)
    (hreading : tree.isReading = true) (hwords : tree.words = file.layout.words) :
    GoFile.read file.layout.source = file :=
  (Layout.read_eq_file hplain hparse hreading hwords).trans file.layout_file

/-- A function of two types without names. -/
def Layout.unnamed : Layout where
  package := "p"
  items := [.types (.single
    { name := "F"
      expr := .func [{ names := [], type := .ident "error" },
        { names := [], type := .map (.ident "T") (.ident "V") }] [] })]

-- Not every text has a tree with the words spelled: here `map` is read as the name of a parameter.
example : (Tree.ofText? Layout.unnamed.source.toList).any (fun tree =>
    tree.isReading && tree.words != Layout.unnamed.words) = true := by
  decide +kernel

/-- The file of a constant whose value is selected from a package. -/
def GoFile.selecting (package : String) : GoFile where
  package := "p"
  imports := []
  decls := [.const { name := "X", type := none, values := [.selector package "b"] }]

/-- A package that goes by the name of a predeclared value is lost. -/
theorem GoFile.read_selecting_true :
    GoFile.read (GoFile.selecting "true").layout.source ≠ GoFile.selecting "true" := by
  have hwords : (GoFile.read (GoFile.selecting "true").layout.source).layout.words ≠
      (GoFile.selecting "true").layout.words := by decide +kernel
  exact fun hread => hwords (congrArg (·.layout.words) hread)

end GoAtlas
