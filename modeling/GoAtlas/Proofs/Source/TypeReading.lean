import GoAtlas.Proofs.Source.ListReading

/-!
# Spelled types are read back

The words of a type that has been spelled out mean that type and no other.  Where they end is
settled by what comes next: a word that no type goes on with (`typeStops`).
-/

namespace GoAtlas.Source

variable {stops : List Token} {rest rest' words : List Word}

/-! ## Types -/

/-- The tokens that a type can start with. -/
def typeStarts : List Token :=
  [.identifier, .openParen, .star, .openBracket, .mapWord, .chanWord, .arrow, .structWord,
    .interfaceWord, .funcWord, .tilde]

/-- The tokens that no type goes on with. -/
def typeStops : List Token :=
  [.closeParen, .closeBracket, .closeBrace, .comma, .assign, .openBrace, .bar] ++
    (terminators ++ stringTokens)

theorem TypePhrase.start {type : TypeExpr} (htype : TypePhrase words type) :
    ∃ word more, words = word :: more ∧ word.1 ∈ typeStarts := by
  cases htype <;> exact ⟨_, _, rfl, by simp [typeStarts]⟩

/-- A type that starts with a name is the name, perhaps with its package, or it has arguments. -/
theorem TypePhrase.of_identifier {name : String} {type : TypeExpr}
    (htype : TypePhrase ((.identifier, name) :: words) type) :
    (words = [] ∧ type = .ident name) ∨
      (∃ dot last, words = [(.dot, dot), (.identifier, last)] ∧ type = .selector name last) ∨
      (∃ opening word more, words = (.openBracket, opening) :: word :: more ∧
        word.1 ≠ .closeBracket) ∨
      ∃ dot last opening more,
        words = (.dot, dot) :: (.identifier, last) :: (.openBracket, opening) :: more := by
  cases htype with
  | name => exact Or.inl ⟨rfl, rfl⟩
  | qualified package last => exact Or.inr (Or.inl ⟨_, last, rfl, rfl⟩)
  | applied hargument => exact Or.inr (Or.inr (Or.inl ⟨_, _, _, rfl, hargument⟩))
  | appliedQualified => exact Or.inr (Or.inr (Or.inr ⟨_, _, _, _, rfl⟩))

/-- Some words are read back as a type. -/
def Spells (spelled : List Word) (spec : TypeExpr) : Prop :=
  ReadsBack typeStops TypePhrase (fun _ => spelled) Eq spec

/-- The words of a type are read back as that type. -/
def Reads (spec : TypeExpr) : Prop := Spells spec.words spec

variable {spelled : List Word}

theorem spells_ident (name : String) : Spells [(.identifier, name)] (.ident name) := by
  intro words type rest rest' htype hwords hrest hrest'
  obtain ⟨word, more, rfl, -⟩ := htype.start
  simp only [List.cons_append, List.nil_append, List.cons.injEq] at hwords
  obtain ⟨rfl, rfl⟩ := hwords
  rcases htype.of_identifier with
    ⟨rfl, rfl⟩ | ⟨_, _, rfl, -⟩ | ⟨_, _, _, rfl, -⟩ | ⟨_, _, _, _, rfl⟩
  · exact ⟨rfl, rfl⟩
  all_goals exact absurd hrest' (not_stops (by decide))

theorem spells_selector (package name : String) :
    Spells [(.identifier, package), (.dot, "."), (.identifier, name)]
      (.selector package name) := by
  intro words type rest rest' htype hwords hrest hrest'
  obtain ⟨word, more, rfl, -⟩ := htype.start
  simp only [List.cons_append, List.nil_append, List.cons.injEq] at hwords
  obtain ⟨rfl, hwords⟩ := hwords
  rcases htype.of_identifier with
    ⟨rfl, rfl⟩ | ⟨_, _, rfl, rfl⟩ | ⟨_, _, _, rfl, -⟩ | ⟨_, _, _, _, rfl⟩
  · rw [List.nil_append] at hwords
    subst hwords
    exact absurd hrest (not_stops (by decide))
  · simp_all
  · simp at hwords
  · simp only [List.cons_append, List.cons.injEq] at hwords
    obtain ⟨-, -, rfl⟩ := hwords
    exact absurd hrest' (not_stops (by decide))

theorem spells_pointer {target : TypeExpr} (htarget : Spells spelled target) :
    Spells ((.star, "*") :: spelled) (.pointer target) := by
  intro words type rest rest' htype hwords hrest hrest'
  simp only [List.cons_append] at hwords
  cases htype with
  | pointer htype =>
      simp only [List.cons_append, List.cons.injEq] at hwords
      obtain ⟨rfl, rfl⟩ := htarget _ _ _ _ htype hwords.2 hrest hrest'
      exact ⟨rfl, rfl⟩
  | _ => simp at hwords

theorem spells_array {elem : TypeExpr} (helem : Spells spelled elem) :
    Spells ((.openBracket, "[") :: (.closeBracket, "]") :: spelled) (.array elem) := by
  intro words type rest rest' htype hwords hrest hrest'
  simp only [List.cons_append] at hwords
  cases htype with
  | slice htype =>
      simp only [List.cons_append, List.cons.injEq] at hwords
      obtain ⟨rfl, rfl⟩ := helem _ _ _ _ htype hwords.2.2 hrest hrest'
      exact ⟨rfl, rfl⟩
  | array hlength =>
      simp only [List.cons_append, List.cons.injEq] at hwords
      exact absurd (congrArg Prod.fst hwords.2.1) hlength
  | _ => simp at hwords

theorem spells_map {keyWords valueWords : List Word} {key value : TypeExpr}
    (hkey : Spells keyWords key) (hvalue : Spells valueWords value) :
    Spells ((.mapWord, "map") :: (.openBracket, "[") ::
      (keyWords ++ (.closeBracket, "]") :: valueWords)) (.map key value) := by
  intro words type rest rest' htype hwords hrest hrest'
  simp only [List.cons_append, List.append_assoc] at hwords
  cases htype with
  | map hkeyPhrase hvaluePhrase =>
      simp only [List.cons_append, List.append_assoc, List.cons.injEq] at hwords
      have hclose : Token.closeBracket ∈ typeStops := by decide
      obtain ⟨rfl, hafter⟩ := hkey _ _ _ _ hkeyPhrase hwords.2.2 (by simpa) (by simpa)
      obtain ⟨rfl, rfl⟩ := hvalue _ _ _ _ hvaluePhrase (List.cons.inj hafter).2 hrest hrest'
      exact ⟨rfl, rfl⟩
  | _ => simp at hwords

/-- A type in parentheses is the type between them. -/
theorem spells_parens {type : TypeExpr} (htype : Spells spelled type) :
    Spells (parenWords spelled) type := by
  intro words found rest rest' hfound hwords _ _
  simp only [parenWords, List.cons_append, List.append_assoc] at hwords
  cases hfound with
  | parens hfound =>
      simp only [List.cons_append, List.append_assoc, List.cons.injEq] at hwords
      have hclose : Token.closeParen ∈ typeStops := by decide
      obtain ⟨rfl, hafter⟩ := htype _ _ _ _ hfound hwords.2 (by simpa) (by simpa)
      exact ⟨rfl, (List.cons.inj hafter).2⟩
  | _ => simp at hwords

/-- A channel of both directions is read back if its element does not start with an arrow. -/
theorem spells_both {elem : TypeExpr} (helem : Spells spelled elem)
    (hstart : ∃ word more, spelled = word :: more ∧ word.1 ≠ .arrow) :
    Spells ((.chanWord, "chan") :: spelled) (.chan .both elem) := by
  intro words type rest rest' htype hwords hrest hrest'
  simp only [List.cons_append] at hwords
  cases htype with
  | chan htype =>
      simp only [List.cons_append, List.cons.injEq] at hwords
      obtain ⟨rfl, rfl⟩ := helem _ _ _ _ htype hwords.2 hrest hrest'
      exact ⟨rfl, rfl⟩
  | sendChan htype =>
      obtain ⟨word, more, rfl, harrow⟩ := hstart
      simp only [List.cons_append, List.cons.injEq] at hwords
      exact absurd (congrArg Prod.fst hwords.2.1).symm harrow
  | _ => simp at hwords

/-- A channel that is sent to is read back if no type starts with its arrow. -/
theorem spells_send {elem : TypeExpr} (helem : Spells spelled elem)
    (hnot : ∀ words type rest rest', TypePhrase words type →
      words ++ rest ≠ (.arrow, "<-") :: (spelled ++ rest')) :
    Spells ((.chanWord, "chan") :: (.arrow, "<-") :: spelled) (.chan .send elem) := by
  intro words type rest rest' htype hwords hrest hrest'
  simp only [List.cons_append] at hwords
  cases htype with
  | chan htype =>
      simp only [List.cons_append, List.cons.injEq] at hwords
      exact absurd hwords.2 (hnot _ _ _ _ htype)
  | sendChan htype =>
      simp only [List.cons_append, List.cons.injEq] at hwords
      obtain ⟨rfl, rfl⟩ := helem _ _ _ _ htype hwords.2.2 hrest hrest'
      exact ⟨rfl, rfl⟩
  | _ => simp at hwords

theorem spells_recv {elem : TypeExpr} (helem : Spells spelled elem) :
    Spells ((.arrow, "<-") :: (.chanWord, "chan") :: spelled) (.chan .recv elem) := by
  intro words type rest rest' htype hwords hrest hrest'
  simp only [List.cons_append] at hwords
  cases htype with
  | recvChan htype =>
      simp only [List.cons_append, List.cons.injEq] at hwords
      obtain ⟨rfl, rfl⟩ := helem _ _ _ _ htype hwords.2.2 hrest hrest'
      exact ⟨rfl, rfl⟩
  | _ => simp at hwords

theorem reads_chan {dir : ChanDir} {elem : TypeExpr} (helem : Reads elem) :
    Reads (.chan dir elem) := by
  have hparens := spells_parens helem
  cases dir with
  | both => exact spells_both hparens ⟨_, _, rfl, by decide⟩
  | send =>
      -- After the arrow stands no channel, but a parenthesis.
      refine spells_send hparens fun _ _ _ _ htype hwords => ?_
      cases htype <;> simp [parenWords] at hwords
  | recv => exact spells_recv hparens

/-! ## First words -/

/-- The tokens that a spelled type starts with, apart from brackets. -/
def plainStarts : List Token :=
  [.identifier, .mapWord, .star, .structWord, .interfaceWord, .funcWord, .chanWord, .arrow]

/-- The first words of a spelled type, parameter type or list of more names: none that a name goes
on with as a type. -/
def Begins (words : List Word) : Prop :=
  ∃ word more, words = word :: more ∧
    (word.1 ∈ .comma :: .ellipsis :: plainStarts ∨
      word.1 = .openBracket ∧ ∃ closing last, more = (.closeBracket, closing) :: last)

/-- No word that stops a type of a field begins another type or more names. -/
theorem Stops.not_begins (hrest : Stops stops rest) (hstops : ∀ token ∈ stops,
    token ∉ Token.comma :: .ellipsis :: .openBracket :: plainStarts) : ¬ Begins rest := by
  rintro ⟨word, more, rfl, hword⟩
  have hnot := hstops _ (stops_cons.mp hrest)
  rcases hword with hword | ⟨hword, -⟩
  · simp only [List.mem_cons, not_or] at hnot hword
    tauto
  · simp [hword] at hnot

theorem Begins.append (hwords : Begins words) : Begins (words ++ rest) := by
  obtain ⟨word, more, rfl, hword | ⟨hword, closing, last, rfl⟩⟩ := hwords
  · exact ⟨word, more ++ rest, rfl, Or.inl hword⟩
  · exact ⟨word, _, rfl, Or.inr ⟨hword, closing, last ++ rest, rfl⟩⟩

/-- What a type is spelled with first. -/
theorem words_start {type : TypeExpr} (hplain : type.isPlain = true) :
    Begins type.words ∧ ∃ word more, type.words = word :: more ∧
      word.1 ∈ .openBracket :: plainStarts := by
  cases type with
  | chan dir elem =>
      cases dir <;> simp [TypeExpr.words, TypeExpr.directionWords, Begins, plainStarts]
  | ellipsis elem => simp [TypeExpr.isPlain] at hplain
  | unsupported kind => simp [TypeExpr.isPlain] at hplain
  | _ => simp [TypeExpr.words, Begins, plainStarts]

/-- A name before the first words of another type is a type by itself. -/
theorem TypePhrase.of_begins {name : String} {type : TypeExpr}
    (htype : TypePhrase ((.identifier, name) :: words) type) (hbegins : Begins (words ++ rest)) :
    words = [] ∧ type = .ident name := by
  obtain ⟨word, more, hwords, hword⟩ := hbegins
  rcases htype.of_identifier with
    hname | ⟨_, _, rfl, -⟩ | ⟨_, argument, _, rfl, hargument⟩ | ⟨_, _, _, _, rfl⟩
  · exact hname
  · simp only [List.cons_append, List.cons.injEq] at hwords
    obtain ⟨rfl, -⟩ := hwords
    simp [plainStarts] at hword
  · simp only [List.cons_append, List.cons.injEq] at hwords
    obtain ⟨rfl, rfl⟩ := hwords
    obtain hin | ⟨-, _, _, hclose⟩ := hword
    · simp [plainStarts] at hin
    · simp only [List.cons.injEq] at hclose
      exact absurd (congrArg Prod.fst hclose.1) hargument
  · simp only [List.cons_append, List.cons.injEq] at hwords
    obtain ⟨rfl, -⟩ := hwords
    simp [plainStarts] at hword

/-! ## Names -/

/-- The first tokens of what comes after the names of a member. -/
def nameStops : List Token := .ellipsis :: typeStarts

theorem moreNames_unique {names specs : List String} (hnames : NamesTail names words)
    (hwords : words ++ rest =
      (specs.map fun name => [(.identifier, name)]).flatMap ((.comma, ",") :: ·) ++ rest')
    (hrest : Stops nameStops rest) (hrest' : Stops nameStops rest') :
    names = specs ∧ rest = rest' := by
  induction hnames generalizing specs with
  | nil =>
      cases specs with
      | nil => exact ⟨rfl, hwords⟩
      | cons name specs =>
          rw [List.nil_append] at hwords
          subst hwords
          exact absurd hrest (not_stops (by decide))
  | cons htail ih =>
      cases specs with
      | nil =>
          rw [List.map_nil, List.flatMap_nil, List.nil_append] at hwords
          subst hwords
          exact absurd hrest' (not_stops (by decide))
      | cons name specs =>
          simp only [List.map_cons, List.flatMap_cons, List.cons_append, List.nil_append,
            List.cons.injEq, Prod.mk.injEq, true_and] at hwords
          obtain ⟨-, rfl, hwords⟩ := hwords
          obtain ⟨rfl, rfl⟩ := ih hwords
          exact ⟨rfl, rfl⟩

theorem names_unique {names : List String} {spec : String} {specs : List String}
    (hnames : NamesPhrase names words) (hsome : names ≠ [])
    (hwords : words ++ rest = TypeExpr.nameWords (spec :: specs) ++ rest')
    (hrest : Stops nameStops rest) (hrest' : Stops nameStops rest') :
    names = spec :: specs ∧ rest = rest' := by
  cases hnames with
  | none => exact absurd rfl hsome
  | cons htail =>
      simp only [TypeExpr.nameWords, List.map_cons, commaWords, List.cons_append, List.nil_append,
        List.cons.injEq, Prod.mk.injEq, true_and] at hwords
      obtain ⟨rfl, hwords⟩ := hwords
      obtain ⟨rfl, rfl⟩ := moreNames_unique htail hwords hrest hrest'
      exact ⟨rfl, rfl⟩

/-- After its first name a spelled list of names goes on with a comma, or with what comes next. -/
theorem begins_nameWords {name : String} {names : List String} (hrest : Begins rest) :
    ∃ more, TypeExpr.nameWords (name :: names) ++ rest = (.identifier, name) :: more ∧
      Begins more := by
  cases names with
  | nil => exact ⟨rest, by simp [TypeExpr.nameWords, commaWords], hrest⟩
  | cons next names =>
      refine ⟨_, by simp [TypeExpr.nameWords, commaWords]; rfl, ?_⟩
      exact ⟨_, _, rfl, Or.inl (by simp)⟩

/-! ## Fields -/

/-- The words of a field, parameter or result. -/
def memberSpelling (member : FieldDecl) : List Word :=
  TypeExpr.nameWords member.names ++ (member.type.words ++ TypeExpr.tagWords member.tag)

/-- Spelled members are words that start as types or names do. -/
theorem memberSpelling_start (member : FieldDecl)
    (htype : ∃ word more, member.type.words = word :: more ∧ word.1 ∈ nameStops) :
    ∃ word more, memberSpelling member = word :: more ∧ word.1 ∈ nameStops := by
  obtain ⟨names, type, tag⟩ := member
  cases names with
  | nil =>
      obtain ⟨word, more, hwords, hword⟩ := htype
      exact ⟨word, _, congrArg (· ++ TypeExpr.tagWords tag) hwords, hword⟩
  | cons name names => exact ⟨(.identifier, name), _, rfl, by simp [nameStops, typeStarts]⟩

theorem memberWords_eq (members : List FieldDecl) :
    TypeExpr.memberWords members = members.map memberSpelling := by
  induction members with
  | nil => rfl
  | cons member members ih => simp [TypeExpr.memberWords, memberSpelling, ih]

/-- A supported field. -/
structure PlainField (field : FieldDecl) : Prop where
  type : field.type.isPlain = true
  named : field.names = [] → field.type.isEmbeddable = true
  tag : ∀ tag ∈ field.tag, literalToken tag ∈ stringTokens

theorem plainFields {fields : List FieldDecl} (hplain : TypeExpr.arePlainFields fields = true) :
    ∀ field ∈ fields, PlainField field := by
  induction fields with
  | nil => simp
  | cons field fields ih =>
      obtain ⟨names, type, tag⟩ := field
      simp only [TypeExpr.arePlainFields, Bool.and_eq_true, Bool.or_eq_true,
        Bool.not_eq_true'] at hplain
      obtain ⟨⟨⟨htype, hnamed⟩, htag⟩, hothers⟩ := hplain
      refine List.forall_mem_cons.mpr ⟨⟨htype, ?_, ?_⟩, ih hothers⟩
      · rintro rfl
        simpa using hnamed
      · rintro text rfl
        simpa [stringTokens] using htag

/-- The tokens that a field ends before. -/
def fieldStops : List Token := terminators ++ [.closeBrace]

/-- The tokens that the type of a field ends before. -/
def tagStops : List Token := fieldStops ++ stringTokens

theorem tagStops_subset : tagStops ⊆ typeStops := by decide

theorem tag_unique {tag spec : Option String} (htag : TagPhrase tag words)
    (hspec : ∀ text ∈ spec, literalToken text ∈ stringTokens)
    (hwords : words ++ rest = TypeExpr.tagWords spec ++ rest')
    (hrest : Stops fieldStops rest) (hrest' : Stops fieldStops rest') :
    tag = spec ∧ rest = rest' := by
  have hapart : ∀ token ∈ stringTokens, token ∉ fieldStops := by decide
  cases htag with
  | none =>
      cases spec with
      | none => exact ⟨rfl, hwords⟩
      | some text =>
          rw [List.nil_append] at hwords
          subst hwords
          exact absurd (stops_cons.mp hrest) (hapart _ (hspec text rfl))
  | some htoken =>
      cases spec with
      | none =>
          simp only [TypeExpr.tagWords, Option.toList_none, List.map_nil, List.nil_append] at hwords
          subst hwords
          exact absurd (stops_cons.mp hrest') (hapart _ htoken)
      | some text =>
          simp only [TypeExpr.tagWords, literalWord, Option.toList_some, List.map_cons,
            List.map_nil, List.cons_append, List.nil_append, List.cons.injEq,
            Prod.mk.injEq] at hwords
          obtain ⟨⟨-, rfl⟩, rfl⟩ := hwords
          exact ⟨rfl, rfl⟩

theorem stops_tag {tag : Option String} (htag : TagPhrase tag words)
    (hrest : Stops fieldStops rest) : Stops tagStops (words ++ rest) := by
  cases htag with
  | none => exact hrest.mono (List.subset_append_left _ _)
  | some htoken => exact stops_cons.mpr (List.mem_append_right _ htoken)

theorem stops_tagWords {spec : Option String}
    (hspec : ∀ text ∈ spec, literalToken text ∈ stringTokens)
    (hrest : Stops fieldStops rest) : Stops tagStops (TypeExpr.tagWords spec ++ rest) := by
  cases spec with
  | none => exact hrest.mono (List.subset_append_left _ _)
  | some text => exact stops_cons.mpr (List.mem_append_right _ (hspec text rfl))

/-- Names go on with a comma or with the type after them. -/
theorem NamesTail.start {names : List String} {more : List Word} (hnames : NamesTail names words)
    (hmore : ∃ word last, more = word :: last ∧ word.1 ∈ nameStops) (after : List Word) :
    ∃ word last, words ++ (more ++ after) = word :: last ∧ word.1 ∈ Token.comma :: nameStops := by
  cases hnames with
  | nil =>
      obtain ⟨word, last, rfl, hword⟩ := hmore
      exact ⟨word, last ++ after, rfl, List.mem_cons_of_mem _ hword⟩
  | cons _ => exact ⟨_, _, rfl, List.mem_cons_self ..⟩

theorem TypePhrase.start_names {type : TypeExpr} (htype : TypePhrase words type) :
    ∃ word more, words = word :: more ∧ word.1 ∈ nameStops := by
  obtain ⟨word, more, rfl, hword⟩ := htype.start
  exact ⟨word, more, rfl, List.mem_cons_of_mem _ hword⟩

theorem words_start_names {type : TypeExpr} (hplain : type.isPlain = true) :
    ∃ word more, type.words = word :: more ∧ word.1 ∈ nameStops := by
  obtain ⟨-, word, more, hwords, hword⟩ := words_start hplain
  have hsubset : Token.openBracket :: plainStarts ⊆ nameStops := by decide
  exact ⟨word, more, hwords, hsubset hword⟩

theorem stops_append {more : List Word}
    (hmore : ∃ word last, more = word :: last ∧ word.1 ∈ stops) : Stops stops (more ++ rest) := by
  obtain ⟨word, last, rfl, hword⟩ := hmore
  exact stops_cons.mpr hword

/-- After the name of an embedded type comes no other type, nor another name. -/
theorem not_embedded {type : TypeExpr} {name : String} {word : Word} {more : List Word}
    (hembeddable : type.isEmbeddable = true) (hrest : Stops tagStops rest)
    (hwords : (.identifier, name) :: word :: more = type.words ++ rest)
    (hword : word.1 ∈ Token.comma :: nameStops) : False := by
  have hapart : ∀ token ∈ Token.comma :: nameStops, token ∉ Token.dot :: tagStops := by decide
  have hnot := hapart _ hword
  cases type with
  | ident =>
      simp only [TypeExpr.words, List.cons_append, List.nil_append, List.cons.injEq] at hwords
      rw [← hwords.2, stops_cons] at hrest
      exact hnot (List.mem_cons_of_mem _ hrest)
  | selector =>
      simp only [TypeExpr.words, List.cons_append, List.cons.injEq] at hwords
      simp [hwords.2.1] at hnot
  | pointer => simp [TypeExpr.words] at hwords
  | _ => simp [TypeExpr.isEmbeddable, TypeExpr.isNamed] at hembeddable

/-- A spelled field is read back, if its type is. -/
theorem readsBack_field {spec : FieldDecl} (hplain : PlainField spec) (hreads : Reads spec.type) :
    ReadsBack fieldStops FieldPhrase memberSpelling Eq spec := by
  intro words field rest rest' hfield hwords hrest hrest'
  obtain ⟨names, type, tag⟩ := spec
  obtain ⟨hplainType, hembeddable, hspecTag⟩ := hplain
  simp only [memberSpelling, List.append_assoc] at hwords
  have hspecStops : Stops tagStops (TypeExpr.tagWords tag ++ rest') :=
    stops_tagWords hspecTag hrest'
  cases hfield with
  | named hnames htype htag =>
      have htagStops := stops_tag htag hrest
      simp only [List.append_assoc] at hwords
      cases names with
      | cons name names =>
          obtain ⟨hnames, hafter⟩ := names_unique hnames (List.cons_ne_nil _ _) hwords
            (stops_append htype.start_names) (stops_append (words_start_names hplainType))
          cases hnames
          obtain ⟨rfl, hend⟩ := hreads _ _ _ _ htype hafter
            (htagStops.mono tagStops_subset) (hspecStops.mono tagStops_subset)
          obtain ⟨rfl, rfl⟩ := tag_unique htag hspecTag hend hrest hrest'
          exact ⟨rfl, rfl⟩
      | nil =>
          cases hnames with
          | cons htail =>
              obtain ⟨word, last, hstart, hword⟩ := htail.start htype.start_names _
              rw [List.cons_append, hstart] at hwords
              exact (not_embedded (hembeddable rfl) hspecStops hwords hword).elim
  | embedded htype htag =>
      have htagStops := stops_tag htag hrest
      cases names with
      | cons name names =>
          have hbegins : Begins (type.words ++ (TypeExpr.tagWords tag ++ rest')) :=
            (words_start hplainType).1.append
          obtain ⟨more, hmore, hbegins⟩ := @begins_nameWords _ name names hbegins
          rw [List.append_assoc, hmore] at hwords
          obtain ⟨first, others, rfl, -⟩ := htype.start
          rw [List.cons_append, List.cons.injEq] at hwords
          obtain ⟨rfl, rfl⟩ := hwords
          obtain ⟨rfl, -⟩ := htype.of_begins hbegins
          exact absurd hbegins (htagStops.not_begins (by decide))
      | nil =>
          simp only [TypeExpr.nameWords, List.map_nil, commaWords, List.nil_append,
            List.append_assoc] at hwords
          obtain ⟨rfl, hend⟩ := hreads _ _ _ _ htype hwords
            (htagStops.mono tagStops_subset) (hspecStops.mono tagStops_subset)
          obtain ⟨rfl, rfl⟩ := tag_unique htag hspecTag hend hrest hrest'
          exact ⟨rfl, rfl⟩

/-! ## Elements of interfaces -/

/-- The words of an element. -/
def elementSpelling (element : FieldDecl) : List Word :=
  match element.names with
  | [] => element.type.words
  | names => TypeExpr.nameWords names ++ element.type.words.tail

theorem elementWords_eq (elements : List FieldDecl) :
    TypeExpr.elementWords elements = elements.map elementSpelling := by
  induction elements with
  | nil => rfl
  | cons element elements ih =>
      obtain ⟨names, type, tag⟩ := element
      cases names <;> simp [TypeExpr.elementWords, elementSpelling, ih]

/-- A supported element: an embedded name or a method. -/
inductive PlainElement : FieldDecl → Prop where
  | embedded {type : TypeExpr} (hnamed : type.isNamed = true) :
      PlainElement { names := [], type }
  | method (name : String) {params results : List FieldDecl}
      (hplain : (TypeExpr.func params results).isPlain = true) :
      PlainElement { names := [name], type := .func params results }

theorem PlainElement.type {element : FieldDecl} (hplain : PlainElement element) :
    element.type.isPlain = true := by
  cases hplain with
  | @embedded type hnamed => cases type <;> first | rfl | simp [TypeExpr.isNamed] at hnamed
  | method _ hplain => exact hplain

theorem plainElements {elements : List FieldDecl}
    (hplain : TypeExpr.arePlainElements elements = true) :
    ∀ element ∈ elements, PlainElement element := by
  induction elements with
  | nil => simp
  | cons element elements ih =>
      obtain ⟨names, type, tag⟩ := element
      simp only [TypeExpr.arePlainElements, Bool.and_eq_true, Bool.or_eq_true,
        Option.isNone_iff_eq_none, List.isEmpty_iff, beq_iff_eq, List.length_eq_one_iff] at hplain
      obtain ⟨⟨⟨htype, rfl⟩, hkind⟩, hothers⟩ := hplain
      refine List.forall_mem_cons.mpr ⟨?_, ih hothers⟩
      rcases hkind with ⟨rfl, hnamed⟩ | ⟨⟨name, rfl⟩, hfunc⟩
      · exact .embedded hnamed
      · cases type with
        | func params results => exact .method name htype
        | _ => simp [TypeExpr.isFunc] at hfunc

theorem SignaturePhrase.start {params results : List FieldDecl}
    (hsignature : SignaturePhrase words params results) :
    ∃ opening more, words = (.openParen, opening) :: more := by
  cases hsignature with
  | plain hparams => cases hparams with | list => exact ⟨_, _, rfl⟩
  | results hparams _ => cases hparams with | list => exact ⟨_, _, rfl⟩
  | result hparams _ _ => cases hparams with | list => exact ⟨_, _, rfl⟩

/-- No type goes on as a method does. -/
theorem TypePhrase.not_method {name opening : String} {type : TypeExpr} {more : List Word}
    (htype : TypePhrase words type)
    (hwords : words ++ rest = (.identifier, name) :: (.openParen, opening) :: more)
    (hrest : Stops stops rest) (hstops : Token.openParen ∉ stops) : False := by
  obtain ⟨word, last, rfl, -⟩ := htype.start
  simp only [List.cons_append, List.cons.injEq] at hwords
  obtain ⟨rfl, hwords⟩ := hwords
  rcases htype.of_identifier with
    ⟨rfl, -⟩ | ⟨_, _, rfl, -⟩ | ⟨_, _, _, rfl, -⟩ | ⟨_, _, _, _, rfl⟩
  · rw [List.nil_append] at hwords
    subst hwords
    exact not_stops hstops hrest
  all_goals simp at hwords

theorem fieldStops_subset : fieldStops ⊆ typeStops := by decide

/-- A spelled element is read back, if its type is. -/
theorem readsBack_element {spec : FieldDecl} (hplain : PlainElement spec)
    (hreads : Reads spec.type) : ReadsBack fieldStops ElementPhrase elementSpelling Eq spec := by
  intro words element rest rest' helement hwords hrest hrest'
  have hparen : Token.openParen ∉ fieldStops := by decide
  have hbar : Token.bar ∈ typeStops := by decide
  cases hplain with
  | @embedded type hnamed =>
      simp only [elementSpelling] at hwords
      cases helement with
      | method hsignature =>
          obtain ⟨opening, more, rfl⟩ := hsignature.start
          have hembeddable : type.isEmbeddable = true := by
            cases type <;> first | rfl | simp [TypeExpr.isNamed] at hnamed
          exact (not_embedded hembeddable (hrest'.mono (by decide)) hwords
            (by simp [nameStops, typeStarts])).elim
      | embedded htype =>
          obtain ⟨rfl, rfl⟩ := hreads _ _ _ _ htype hwords
            (hrest.mono fieldStops_subset) (hrest'.mono fieldStops_subset)
          exact ⟨rfl, rfl⟩
      | union htype =>
          rw [List.append_assoc] at hwords
          obtain ⟨-, rfl⟩ := hreads _ _ _ _ htype hwords
            (stops_cons.mpr hbar) (hrest'.mono fieldStops_subset)
          exact absurd hrest' (not_stops (by decide))
  | method name hplain =>
      simp only [elementSpelling, TypeExpr.nameWords, List.map_cons, List.map_nil, commaWords,
        List.flatMap_nil, List.append_nil, List.cons_append, List.nil_append] at hwords
      cases helement with
      | method hsignature =>
          simp only [List.cons_append, List.cons.injEq, Prod.mk.injEq, true_and] at hwords
          obtain ⟨rfl, hwords⟩ := hwords
          obtain ⟨hfunc, rfl⟩ := hreads _ _ _ _ (@TypePhrase.func "func" _ _ _ hsignature)
            (congrArg (List.cons (.funcWord, "func")) hwords)
            (hrest.mono fieldStops_subset) (hrest'.mono fieldStops_subset)
          exact ⟨by rw [hfunc], rfl⟩
      | embedded htype => exact (htype.not_method hwords hrest hparen).elim
      | union htype =>
          rw [List.append_assoc] at hwords
          exact (htype.not_method hwords (stops_cons.mpr hbar) (by decide)).elim

/-! ## Structs and interfaces -/

theorem starts_apart {starts : List Token}
    (hstart : ∃ word more, words = word :: more ∧ word.1 ∈ starts)
    (hapart : ∀ token ∈ starts, token ∉ stops) :
    ∃ word more, words = word :: more ∧ word.1 ∉ stops := by
  obtain ⟨word, more, hwords, hword⟩ := hstart
  exact ⟨word, more, hwords, hapart _ hword⟩

theorem FieldPhrase.start {field : FieldDecl} (hfield : FieldPhrase words field) :
    ∃ word more, words = word :: more ∧ word.1 ∈ typeStarts := by
  cases hfield with
  | named hnames _ _ => cases hnames; exact ⟨_, _, rfl, by simp [typeStarts]⟩
  | @embedded _ last _ _ htype _ =>
      obtain ⟨word, more, rfl, hword⟩ := htype.start
      exact ⟨word, more ++ last, rfl, hword⟩

theorem ElementPhrase.start {element : FieldDecl} (helement : ElementPhrase words element) :
    ∃ word more, words = word :: more ∧ word.1 ∈ typeStarts := by
  cases helement with
  | method _ => exact ⟨_, _, rfl, by simp [typeStarts]⟩
  | embedded htype => exact htype.start
  | union htype =>
      obtain ⟨word, more, rfl, hword⟩ := htype.start
      exact ⟨word, _, rfl, hword⟩

theorem PlainField.start {field : FieldDecl} (hplain : PlainField field) :
    ∃ word more, memberSpelling field = word :: more ∧ word.1 ∈ nameStops :=
  memberSpelling_start field (words_start_names hplain.type)

theorem PlainElement.start {element : FieldDecl} (hplain : PlainElement element) :
    ∃ word more, elementSpelling element = word :: more ∧ word.1 ∈ nameStops := by
  cases hplain with
  | embedded hnamed =>
      exact words_start_names (PlainElement.embedded hnamed).type
  | method name _ => exact ⟨(.identifier, name), _, rfl, by simp [nameStops, typeStarts]⟩

/-- Spelled members in braces are read back one by one, if each is read back for itself. -/
theorem members_unique {phrase : List Word → FieldDecl → Prop} {spell : FieldDecl → List Word}
    {specs members : List FieldDecl} {items : List (List Word)} {body : List Word}
    {closing closing' : String}
    (hreads : ∀ spec ∈ specs, ReadsBack fieldStops phrase spell Eq spec)
    (hphrase : ∀ words member, phrase words member →
      ∃ word more, words = word :: more ∧ word.1 ∈ typeStarts)
    (hspell : ∀ spec ∈ specs, ∃ word more, spell spec = word :: more ∧ word.1 ∈ nameStops)
    (hbody : Separated terminators items body) (hmembers : List.Forall₂ phrase items members)
    (hwords : body ++ (.closeBrace, closing) :: rest =
      lineWords (specs.map spell) ++ (.closeBrace, closing') :: rest') :
    members = specs ∧ rest = rest' := by
  obtain ⟨hsame, hafter⟩ := lines_unique hreads
    (fun words member hmember => starts_apart (hphrase words member hmember) (by decide))
    (fun spec hspec => starts_apart (hspell spec hspec) (by decide))
    (by decide) hbody hmembers hwords (by simp) (by simp)
  rw [List.forall₂_eq_eq_eq] at hsame
  exact ⟨hsame, (List.cons.inj hafter).2⟩

theorem reads_struct {fields : List FieldDecl} (hplain : ∀ field ∈ fields, PlainField field)
    (hreads : ∀ field ∈ fields, Reads field.type) : Reads (.struct fields false) := by
  intro words type rest rest' htype hwords hrest hrest'
  simp only [TypeExpr.words, braceWords, memberWords_eq, List.cons_append, List.append_assoc,
    List.nil_append] at hwords
  cases htype with
  | struct hbody hfields =>
      simp only [List.cons_append, List.append_assoc, List.nil_append,
        List.cons.injEq] at hwords
      obtain ⟨rfl, rfl⟩ := members_unique
        (fun spec hspec => readsBack_field (hplain spec hspec) (hreads spec hspec))
        (fun _ _ hfield => hfield.start) (fun spec hspec => (hplain spec hspec).start)
        hbody hfields hwords.2.2
      exact ⟨rfl, rfl⟩
  | _ => simp at hwords

theorem reads_interface {elements : List FieldDecl}
    (hplain : ∀ element ∈ elements, PlainElement element)
    (hreads : ∀ element ∈ elements, Reads element.type) : Reads (.interface elements) := by
  intro words type rest rest' htype hwords hrest hrest'
  simp only [TypeExpr.words, braceWords, elementWords_eq, List.cons_append, List.append_assoc,
    List.nil_append] at hwords
  cases htype with
  | interface hbody helements =>
      simp only [List.cons_append, List.append_assoc, List.nil_append,
        List.cons.injEq] at hwords
      obtain ⟨rfl, rfl⟩ := members_unique
        (fun spec hspec => readsBack_element (hplain spec hspec) (hreads spec hspec))
        (fun _ _ helement => helement.start) (fun spec hspec => (hplain spec hspec).start)
        hbody helements hwords.2.2
      exact ⟨rfl, rfl⟩
  | _ => simp at hwords

end GoAtlas.Source
