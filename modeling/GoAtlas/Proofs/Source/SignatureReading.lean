import GoAtlas.Proofs.Source.TypeReading

/-!
# Spelled signatures are read back

Whether the parameters of a list have names is read off the whole list: names before a type can be
told from types with commas between them, as long as all parameters have names or none has.  With
this every spelled type is read back.
-/

namespace GoAtlas.Source

variable {stops : List Token} {rest rest' words : List Word}

/-! ## Parameters -/

/-- The words of the type of a parameter. -/
inductive ParamTypePhrase : List Word → TypeExpr → Prop where
  | plain {words : List Word} {type : TypeExpr} (htype : TypePhrase words type) :
      ParamTypePhrase words type
  | variadic {ellipsis : String} {words : List Word} {type : TypeExpr}
      (htype : TypePhrase words type) :
      ParamTypePhrase ((.ellipsis, ellipsis) :: words) (.ellipsis type)

/-- A parameter is names and a type. -/
theorem ParamPhrase.parts {param : FieldDecl} (hparam : ParamPhrase words param) :
    ∃ names type first last, words = first ++ last ∧ param = { names, type } ∧
      NamesPhrase names first ∧ ParamTypePhrase last type := by
  cases hparam with
  | plain hnames htype => exact ⟨_, _, _, _, rfl, rfl, hnames, .plain htype⟩
  | variadic hnames htype => exact ⟨_, _, _, _, rfl, rfl, hnames, .variadic htype⟩

theorem ParamTypePhrase.start {type : TypeExpr} (htype : ParamTypePhrase words type) :
    ∃ word more, words = word :: more ∧ word.1 ∈ nameStops := by
  cases htype with
  | plain htype => exact htype.start_names
  | variadic => exact ⟨_, _, rfl, List.mem_cons_self ..⟩

theorem ParamPhrase.start {param : FieldDecl} (hparam : ParamPhrase words param) :
    ∃ word more, words = word :: more ∧ word.1 ∈ nameStops := by
  obtain ⟨names, type, first, last, rfl, rfl, hnames, htype⟩ := hparam.parts
  cases hnames with
  | none => exact htype.start
  | cons _ => exact ⟨_, _, rfl, by simp [nameStops, typeStarts]⟩

/-- A supported parameter or result. -/
structure PlainParam (param : FieldDecl) : Prop where
  type : param.type.isPlain = true ∨ ∃ elem, param.type = .ellipsis elem ∧ elem.isPlain = true
  tag : param.tag = none

theorem plainParams {params : List FieldDecl} (hplain : TypeExpr.arePlainParams params = true) :
    ∀ param ∈ params, PlainParam param := by
  induction params with
  | nil => simp
  | cons param params ih =>
      obtain ⟨names, type, tag⟩ := param
      refine List.forall_mem_cons.mpr ?_
      cases type with
      | ellipsis elem =>
          simp only [TypeExpr.arePlainParams, Bool.and_eq_true,
            Option.isNone_iff_eq_none] at hplain
          exact ⟨⟨Or.inr ⟨elem, rfl, hplain.1.1⟩, hplain.1.2⟩, ih hplain.2⟩
      | _ =>
          simp only [TypeExpr.arePlainParams, Bool.and_eq_true,
            Option.isNone_iff_eq_none] at hplain
          exact ⟨⟨Or.inl hplain.1.1, hplain.1.2⟩, ih hplain.2⟩

/-- The words of the type of a parameter are read back as that type. -/
def ReadsParam (spec : TypeExpr) : Prop :=
  ReadsBack typeStops ParamTypePhrase TypeExpr.words Eq spec

theorem PlainParam.begins {param : FieldDecl} (hplain : PlainParam param) :
    Begins param.type.words ∧ ∃ word more, param.type.words = word :: more ∧
      word.1 ∈ nameStops := by
  rcases hplain.type with htype | ⟨elem, htype, -⟩
  · exact ⟨(words_start htype).1, words_start_names htype⟩
  · rw [htype, TypeExpr.words]
    exact ⟨⟨_, _, rfl, Or.inl (by simp)⟩, _, _, rfl, by decide⟩

theorem readsParam {param : FieldDecl} (hplain : PlainParam param)
    (hreads : ∀ type, type = param.type ∨ .ellipsis type = param.type → type.isPlain = true →
      Reads type) : ReadsParam param.type := by
  intro words type rest rest' htype hwords hrest hrest'
  rcases hplain.type with hplainType | ⟨elem, helem, hplainElem⟩
  · cases htype with
    | plain htype => exact hreads _ (Or.inl rfl) hplainType _ _ _ _ htype hwords hrest hrest'
    | variadic _ =>
        obtain ⟨-, word, more, hmore, hword⟩ := words_start hplainType
        rw [hmore, List.cons_append, List.cons_append, List.cons.injEq] at hwords
        simp [← hwords.1, plainStarts] at hword
  · rw [helem, TypeExpr.words, List.cons_append] at hwords
    rw [helem]
    cases htype with
    | plain htype =>
        obtain ⟨word, more, rfl, hword⟩ := htype.start
        rw [List.cons_append, List.cons.injEq] at hwords
        simp [hwords.1, typeStarts] at hword
    | variadic htype =>
        obtain ⟨rfl, rfl⟩ := hreads elem (Or.inr helem.symm) hplainElem _ _ _ _ htype
          (List.cons.inj hwords).2 hrest hrest'
        exact ⟨rfl, rfl⟩

/-- The tokens that a parameter ends before. -/
def paramStops : List Token := [.comma, .closeParen]

theorem paramStops_subset : paramStops ⊆ typeStops := by decide

/-- A spelled parameter is read back, if it has names just when the one read has. -/
theorem param_unique {param spec : FieldDecl} (hplain : PlainParam spec)
    (hreads : ReadsParam spec.type) (hnamed : param.names = [] ↔ spec.names = [])
    (hparam : ParamPhrase words param) (hwords : words ++ rest = memberSpelling spec ++ rest')
    (hrest : Stops paramStops rest) (hrest' : Stops paramStops rest') :
    param = spec ∧ rest = rest' := by
  obtain ⟨names, type, first, last, rfl, rfl, hnames, htype⟩ := hparam.parts
  obtain ⟨specNames, specType, tag⟩ := spec
  obtain rfl : tag = none := hplain.tag
  simp only [memberSpelling, TypeExpr.tagWords, Option.toList_none, List.map_nil, List.append_nil,
    List.append_assoc] at hwords
  have hread : ∀ rest rest', last ++ rest = specType.words ++ rest' → Stops paramStops rest →
      Stops paramStops rest' → type = specType ∧ rest = rest' :=
    fun rest rest' hwords hrest hrest' => hreads _ _ _ _ htype hwords
      (hrest.mono paramStops_subset) (hrest'.mono paramStops_subset)
  cases specNames with
  | nil =>
      obtain rfl : names = [] := hnamed.mpr rfl
      cases hnames
      obtain ⟨rfl, rfl⟩ := hread _ _ hwords hrest hrest'
      exact ⟨rfl, rfl⟩
  | cons name specNames =>
      have hsome : names ≠ [] := fun hnone => List.cons_ne_nil _ _ (hnamed.mp hnone)
      obtain ⟨rfl, hafter⟩ := names_unique hnames hsome hwords
        (stops_append htype.start) (stops_append hplain.begins.2)
      obtain ⟨rfl, rfl⟩ := hread _ _ hafter hrest hrest'
      exact ⟨rfl, rfl⟩

/-- After its first word, which is a name, a type goes on with a dot or not at all. -/
theorem PlainParam.of_identifier {param : FieldDecl} {name : String} {more : List Word}
    (hplain : PlainParam param) (hwords : (.identifier, name) :: more = param.type.words ++ rest) :
    more = rest ∨ ∃ dot last, more = (.dot, dot) :: last := by
  obtain ⟨names, type, tag⟩ := param
  cases type with
  | ident => exact Or.inl (by simpa [TypeExpr.words] using congrArg List.tail hwords)
  | selector => exact Or.inr ⟨_, _, by simpa [TypeExpr.words] using congrArg List.tail hwords⟩
  | chan dir => cases dir <;> simp [TypeExpr.words, TypeExpr.directionWords] at hwords
  | unsupported => simpa [TypeExpr.isPlain] using hplain.type
  | _ => simp [TypeExpr.words] at hwords

/-- Names before a type are no types with commas between them. -/
theorem named_not_bare {name : String} {names : List String} {more after : List Word}
    {spec : FieldDecl} {specs : List FieldDecl} (hnames : NamesTail names words)
    (hmore : ∃ word last, more = word :: last ∧ word.1 ∈ nameStops)
    (hplain : ∀ other ∈ spec :: specs, PlainParam other ∧ other.names = [])
    (hrest : Stops [.closeParen] rest)
    (hwords : (.identifier, name) :: (words ++ (more ++ after)) =
      spec.type.words ++ ((specs.map memberSpelling).flatMap ((.comma, ",") :: ·) ++ rest)) :
    False := by
  have hdot : Token.dot ∉ Token.comma :: nameStops := by decide
  have hclose : ∀ token ∈ nameStops, token ∉ [Token.comma, .closeParen] := by decide
  induction hnames generalizing name spec specs with
  | nil =>
      obtain ⟨word, last, rfl, hword⟩ := hmore
      rcases (hplain spec (List.mem_cons_self ..)).1.of_identifier hwords with
        hrest' | ⟨dot, last, hlast⟩
      · have hcomma := @commas_stop [.closeParen] rest _ memberSpelling specs hrest
        rw [← hrest'] at hcomma
        exact hclose _ hword (stops_cons.mp hcomma)
      · rw [List.nil_append, List.cons_append, List.cons.injEq] at hlast
        rw [hlast.1] at hword
        exact hdot (List.mem_cons_of_mem _ hword)
  | cons htail ih =>
      rcases (hplain spec (List.mem_cons_self ..)).1.of_identifier hwords with
        hrest' | ⟨dot, last, hlast⟩
      · cases specs with
        | nil =>
            rw [List.map_nil, List.flatMap_nil, List.nil_append] at hrest'
            rw [← hrest'] at hrest
            exact not_stops (by decide) hrest
        | cons other specs =>
            obtain ⟨hother, hbare⟩ := hplain other (by simp)
            simp only [List.map_cons, List.flatMap_cons, List.cons_append, List.append_assoc,
              List.cons.injEq, memberSpelling, hbare, hother.tag, TypeExpr.nameWords,
              List.map_nil, commaWords, TypeExpr.tagWords, Option.toList_none,
              List.nil_append, List.append_nil] at hrest'
            exact ih (fun next hnext => hplain next (List.mem_cons_of_mem _ hnext)) hrest'.2
      · simp at hlast

/-- A parameter without a name that is a word before a comma or another type is that word. -/
theorem ParamPhrase.of_begins {name : String} {param : FieldDecl} {more : List Word}
    (hparam : ParamPhrase words param) (hbare : param.names = [])
    (hwords : words ++ rest = (.identifier, name) :: more) (hmore : Begins more) :
    rest = more := by
  obtain ⟨names, type, first, last, rfl, rfl, hnames, htype⟩ := hparam.parts
  obtain rfl : names = [] := hbare
  cases hnames
  cases htype with
  | plain htype =>
      obtain ⟨word, last, rfl, -⟩ := htype.start
      simp only [List.nil_append, List.cons_append, List.cons.injEq] at hwords
      obtain ⟨rfl, rfl⟩ := hwords
      obtain ⟨rfl, -⟩ := htype.of_begins hmore
      rfl
  | variadic => simp at hwords

/-- Types with commas between them are no names before a type. -/
theorem bare_not_named {name : String} {names : List String} {more body item : List Word}
    {items : List (List Word)} {entry : FieldDecl} {entries : List FieldDecl}
    (htail : SeparatedTail [.comma] items body) (hentry : ParamPhrase item entry)
    (hentries : List.Forall₂ ParamPhrase items entries)
    (hbare : ∀ other ∈ entry :: entries, other.names = []) (hrest : Stops [.closeParen] rest)
    (hmore : Begins more) (hstart : ∃ word last, more = word :: last ∧ word.1 ∈ nameStops)
    (hwords : item ++ (body ++ rest) = TypeExpr.nameWords (name :: names) ++ more) : False := by
  have hbareEntry := hbare entry (List.mem_cons_self ..)
  induction names generalizing name item items entry entries body with
  | nil =>
      have hclose : ∀ token ∈ nameStops, token ∉ [Token.comma] ++ [.closeParen] := by decide
      have hafter : body ++ rest = more := hentry.of_begins hbareEntry hwords hmore
      have hstops := htail.stops_append hrest
      obtain ⟨word, last, rfl, hword⟩ := hstart
      rw [hafter, stops_cons] at hstops
      exact hclose _ hword hstops
  | cons next names ih =>
      obtain ⟨last, hlast, -⟩ := @begins_nameWords _ next names hmore
      have hfirst : TypeExpr.nameWords (name :: next :: names) ++ more =
          (.identifier, name) :: (.comma, ",") :: (TypeExpr.nameWords (next :: names) ++ more) := by
        simp [TypeExpr.nameWords, commaWords]
      have hafter := hentry.of_begins hbareEntry (hwords.trans hfirst) ⟨_, _, rfl, Or.inl (by simp)⟩
      cases htail with
      | nil =>
          rw [List.nil_append] at hafter
          rw [hafter] at hrest
          exact not_stops (by decide) hrest
      | last _ =>
          rw [hlast, List.cons_append, List.nil_append, List.cons.injEq] at hafter
          rw [hafter.2] at hrest
          exact not_stops (by decide) hrest
      | cons _ htail =>
          cases hentries with
          | cons hentry hentries =>
              simp only [List.cons_append, List.append_assoc, List.cons.injEq] at hafter
              have hbare := fun other hother => hbare other (List.mem_cons_of_mem _ hother)
              exact ih htail hentry hentries hbare hafter.2 (hbare _ (List.mem_cons_self ..))

theorem uniform_of_isUniform_members {members : List FieldDecl}
    (huniform : TypeExpr.isUniform members = true) : Uniform members := by
  simp only [TypeExpr.isUniform, Bool.or_eq_true, List.all_eq_true, List.isEmpty_iff,
    Bool.not_eq_true', List.isEmpty_eq_false_iff] at huniform
  exact huniform.symm

theorem PlainParam.start {param : FieldDecl} (hplain : PlainParam param) :
    ∃ word more, memberSpelling param = word :: more ∧ word.1 ∈ nameStops :=
  memberSpelling_start param hplain.begins.2

section Params

variable {params specs : List FieldDecl} {items : List (List Word)} {body : List Word}

/-- Parameters are read back one by one, if those read have names just when those spelled have. -/
theorem paramList_unique (hplain : ∀ spec ∈ specs, PlainParam spec)
    (hreads : ∀ spec ∈ specs, ReadsParam spec.type)
    (hnamed : ∀ param ∈ params, ∀ spec ∈ specs, param.names = [] ↔ spec.names = [])
    (hbody : Separated [.comma] items body) (hparams : List.Forall₂ ParamPhrase items params)
    (hwords : body ++ rest = commaWords (specs.map memberSpelling) ++ rest')
    (hrest : Stops [.closeParen] rest) (hrest' : Stops [.closeParen] rest') :
    params = specs ∧ rest = rest' := by
  have hapart : ∀ token ∈ nameStops, token ∉ Token.comma :: [.closeParen] := by decide
  have hmembers : List.Forall₂ (fun item param => param ∈ params ∧ ParamPhrase item param)
      items params :=
    ((List.forall₂_and_left _ _).mpr ⟨fun _ hparam => hparam, hparams.flip⟩).flip
  obtain ⟨hsame, hafter⟩ := commas_unique
    (fun spec hspec words param rest rest' hphrase hwords hrest hrest' =>
      param_unique (hplain spec hspec) (hreads spec hspec) (hnamed param hphrase.1 spec hspec)
        hphrase.2 hwords hrest hrest')
    (fun words param hphrase => by
      obtain ⟨word, more, hwords, hword⟩ := hphrase.2.start
      exact ⟨word, more, hwords, fun hclose => hapart _ hword (List.mem_cons_of_mem _ hclose)⟩)
    (fun spec hspec => by
      obtain ⟨word, more, hwords, hword⟩ := (hplain spec hspec).start
      exact ⟨word, more, hwords, hapart _ hword⟩)
    (by decide) hbody hmembers hwords hrest hrest'
  exact ⟨List.forall₂_eq_eq_eq ▸ hsame, hafter⟩

theorem memberSpelling_bare {spec : FieldDecl} (hplain : PlainParam spec)
    (hbare : spec.names = []) : memberSpelling spec = spec.type.words := by
  simp [memberSpelling, hbare, hplain.tag, TypeExpr.nameWords, commaWords, TypeExpr.tagWords]

/-- The parameters read have names just when those spelled have. -/
theorem named_iff (hplain : ∀ spec ∈ specs, PlainParam spec) (huniform : Uniform specs)
    (hread : Uniform params) (hbody : Separated [.comma] items body)
    (hparams : List.Forall₂ ParamPhrase items params)
    (hwords : body ++ rest = commaWords (specs.map memberSpelling) ++ rest')
    (hrest : Stops [.closeParen] rest) (hrest' : Stops [.closeParen] rest') :
    ∀ param ∈ params, ∀ spec ∈ specs, param.names = [] ↔ spec.names = [] := by
  intro param hparam spec hspec
  rcases hread with hread | hread <;> rcases huniform with huniform | huniform
  · exact iff_of_false (hread param hparam) (huniform spec hspec)
  · exfalso
    cases hbody with
    | none =>
        cases hparams
        cases hparam
    | cons htail =>
        cases hparams with
        | cons hfirst hothers =>
            obtain ⟨names, type, first, last, rfl, rfl, hnames, htype⟩ := hfirst.parts
            cases hnames with
            | none => exact hread _ (List.mem_cons_self ..) rfl
            | cons hnames =>
                cases specs with
                | nil => cases hspec
                | cons spec specs =>
                    have hspecFirst := List.mem_cons_self (a := spec) (l := specs)
                    simp only [List.map_cons, commaWords, List.append_assoc, List.cons_append,
                      memberSpelling_bare (hplain spec hspecFirst)
                        (huniform spec hspecFirst)] at hwords
                    exact named_not_bare hnames htype.start
                      (fun other hother => ⟨hplain other hother, huniform other hother⟩)
                      hrest' hwords
  · exfalso
    cases specs with
    | nil => cases hspec
    | cons spec specs =>
        have hfirst := List.mem_cons_self (a := spec) (l := specs)
        obtain ⟨names, type, tag⟩ := spec
        cases names with
        | nil => exact huniform _ hfirst rfl
        | cons name names =>
            have hbegins := (hplain _ hfirst).begins
            cases hbody with
            | none =>
                cases hparams
                cases hparam
            | cons htail =>
                cases hparams with
                | cons hentry hentries =>
                    simp only [List.map_cons, commaWords, List.append_assoc, memberSpelling]
                      at hwords
                    exact bare_not_named htail hentry hentries hread hrest hbegins.1.append
                      (by
                        obtain ⟨word, more, hmore, hword⟩ := hbegins.2
                        exact ⟨word, _, congrArg (· ++ _) hmore, hword⟩) hwords
  · exact iff_of_true (hread param hparam) (huniform spec hspec)

/-- Lists of parameters are read back, if the types in them are and all parameters have names or
none has. -/
theorem params_unique (huniform : Uniform specs) (hplain : ∀ spec ∈ specs, PlainParam spec)
    (hreads : ∀ spec ∈ specs, ReadsParam spec.type) (hparams : ParamsPhrase words params)
    (hwords : words ++ rest = parenWords (commaWords (TypeExpr.memberWords specs)) ++ rest') :
    params = specs ∧ rest = rest' := by
  cases hparams with
  | @list opening closing items body params hbody hparams hread =>
      simp only [parenWords, memberWords_eq, List.cons_append, List.append_assoc,
        List.nil_append, List.cons.injEq] at hwords
      have hnamed := named_iff hplain huniform hread hbody hparams hwords.2 (by simp) (by simp)
      obtain ⟨rfl, hafter⟩ := paramList_unique hplain hreads hnamed hbody hparams hwords.2
        (by simp) (by simp)
      exact ⟨rfl, (List.cons.inj hafter).2⟩

end Params

/-! ## Signatures -/

/-- The results of a function. -/
inductive ResultPhrase : List Word → List FieldDecl → Prop where
  | none : ResultPhrase [] []
  | list {words : List Word} {results : List FieldDecl} (hresults : ParamsPhrase words results) :
      ResultPhrase words results
  | single {word : Word} {words : List Word} {type : TypeExpr}
      (htype : TypePhrase (word :: words) type) (hword : word.1 ≠ .openParen) :
      ResultPhrase (word :: words) [{ names := [], type }]

/-- Results are none, a single type or a list in parentheses. -/
theorem resultWords_cases (results : List FieldDecl)
    (hplain : ∀ result ∈ results, PlainParam result) :
    results = [] ∨
      (∃ type, results = [{ names := [], type }] ∧
        TypeExpr.resultWords results (TypeExpr.memberWords results) = type.words) ∨
      TypeExpr.resultWords results (TypeExpr.memberWords results) =
        parenWords (commaWords (TypeExpr.memberWords results)) := by
  rcases results with _ | ⟨⟨_ | ⟨name, names⟩, type, tag⟩, _ | ⟨other, results⟩⟩
  · exact Or.inl rfl
  · obtain rfl : tag = none := (hplain _ (List.mem_cons_self ..)).tag
    refine Or.inr (Or.inl ⟨type, rfl, ?_⟩)
    simp [TypeExpr.resultWords, TypeExpr.memberWords, TypeExpr.nameWords, commaWords,
      TypeExpr.tagWords]
  all_goals exact Or.inr (Or.inr rfl)

/-- Spelled results are read back, if the types in them are. -/
theorem results_unique {results specs : List FieldDecl} (huniform : Uniform specs)
    (hplain : ∀ spec ∈ specs, PlainParam spec ∧ spec.type.isPlain = true)
    (hreads : ∀ spec ∈ specs, ReadsParam spec.type) (hresults : ResultPhrase words results)
    (hwords : words ++ rest =
      TypeExpr.resultWords specs (TypeExpr.memberWords specs) ++ rest')
    (hrest : Stops typeStops rest) (hrest' : Stops typeStops rest') :
    results = specs ∧ rest = rest' := by
  have hparen : Token.openParen ∉ typeStops := by decide
  have hstarts : ∀ token ∈ typeStarts, token ∉ typeStops := by decide
  have hbare : ∀ token ∈ Token.openBracket :: plainStarts,
      token ≠ .openParen ∧ token ∉ typeStops := by decide
  rcases resultWords_cases specs fun spec hspec => (hplain spec hspec).1 with
    rfl | ⟨type, rfl, hspell⟩ | hspell
  · rw [TypeExpr.resultWords, List.nil_append] at hwords
    subst hwords
    cases hresults with
    | none => exact ⟨rfl, rfl⟩
    | list hparams => cases hparams; exact absurd hrest' (not_stops hparen)
    | single htype _ =>
        obtain ⟨first, _, hfirst, hstart⟩ := htype.start
        cases hfirst
        exact absurd (stops_cons.mp hrest') (hstarts _ hstart)
  · rw [hspell] at hwords
    obtain ⟨hplain, hplainType⟩ := hplain _ (List.mem_singleton_self _)
    obtain ⟨-, first, more, hfirst, hstart⟩ := words_start hplainType
    cases hresults with
    | none =>
        rw [hfirst, List.nil_append] at hwords
        subst hwords
        exact absurd (stops_cons.mp hrest) (hbare _ hstart).2
    | list hparams =>
        cases hparams
        rw [hfirst, List.cons_append, List.cons_append, List.cons.injEq] at hwords
        exact absurd (congrArg Prod.fst hwords.1).symm (hbare _ hstart).1
    | single htype _ =>
        obtain ⟨rfl, rfl⟩ := hreads _ (List.mem_singleton_self _) _ _ _ _ (.plain htype) hwords
          hrest hrest'
        exact ⟨rfl, rfl⟩
  · rw [hspell] at hwords
    cases hresults with
    | none =>
        rw [List.nil_append, parenWords, List.cons_append] at hwords
        subst hwords
        exact absurd hrest (not_stops hparen)
    | list hparams =>
        exact params_unique huniform (fun spec hspec => (hplain spec hspec).1) hreads hparams hwords
    | single htype hword =>
        rw [parenWords, List.cons_append, List.cons_append, List.cons.injEq] at hwords
        exact absurd (congrArg Prod.fst hwords.1) hword

/-- A spelled signature is read back, if the types in it are. -/
theorem signature_unique {params results specParams specResults : List FieldDecl}
    (hparamsUniform : Uniform specParams) (hresultsUniform : Uniform specResults)
    (hparamsPlain : ∀ spec ∈ specParams, PlainParam spec)
    (hresultsPlain : ∀ spec ∈ specResults, PlainParam spec ∧ spec.type.isPlain = true)
    (hparamsRead : ∀ spec ∈ specParams, ReadsParam spec.type)
    (hresultsRead : ∀ spec ∈ specResults, ReadsParam spec.type)
    (hsignature : SignaturePhrase words params results)
    (hwords : words ++ rest = (parenWords (commaWords (TypeExpr.memberWords specParams)) ++
      TypeExpr.resultWords specResults (TypeExpr.memberWords specResults)) ++ rest')
    (hrest : Stops typeStops rest) (hrest' : Stops typeStops rest') :
    params = specParams ∧ results = specResults ∧ rest = rest' := by
  obtain ⟨first, more, rfl, hparams, hresults⟩ : ∃ first more, words = first ++ more ∧
      ParamsPhrase first params ∧ ResultPhrase more results := by
    cases hsignature with
    | plain hparams => exact ⟨_, [], (List.append_nil _).symm, hparams, .none⟩
    | results hparams hresults => exact ⟨_, _, rfl, hparams, .list hresults⟩
    | result hparams htype hword => exact ⟨_, _, rfl, hparams, .single htype hword⟩
  simp only [List.append_assoc] at hwords
  obtain ⟨rfl, hafter⟩ := params_unique hparamsUniform hparamsPlain hparamsRead hparams hwords
  obtain ⟨rfl, rfl⟩ := results_unique hresultsUniform hresultsPlain hresultsRead hresults hafter
    hrest hrest'
  exact ⟨rfl, rfl, rfl⟩

/-! ## All types -/

theorem reads_func {params results : List FieldDecl} (hparamsUniform : Uniform params)
    (hresultsUniform : Uniform results) (hparamsPlain : ∀ param ∈ params, PlainParam param)
    (hresultsPlain : ∀ result ∈ results, PlainParam result ∧ result.type.isPlain = true)
    (hparamsRead : ∀ param ∈ params, ReadsParam param.type)
    (hresultsRead : ∀ result ∈ results, ReadsParam result.type) : Reads (.func params results) := by
  intro words type rest rest' htype hwords hrest hrest'
  simp only [TypeExpr.words, List.cons_append] at hwords
  cases htype with
  | func hsignature =>
      simp only [List.cons_append, List.cons.injEq] at hwords
      obtain ⟨rfl, rfl, rfl⟩ := signature_unique hparamsUniform hresultsUniform hparamsPlain
        hresultsPlain hparamsRead hresultsRead hsignature hwords.2 hrest hrest'
      exact ⟨rfl, rfl⟩
  | _ => simp at hwords

/-- A spelled type is read back. -/
theorem reads_type (spec : TypeExpr) (hplain : spec.isPlain = true) : Reads spec := by
  induction hsize : sizeOf spec using Nat.strongRecOn generalizing spec with
  | _ size ih =>
      have hreads : ∀ type : TypeExpr, sizeOf type < size → type.isPlain = true → Reads type :=
        fun type hless hplain => ih _ hless type hplain rfl
      have hparam {params : List FieldDecl} {param : FieldDecl} (hless : sizeOf params < size)
          (hmember : param ∈ params) (hplain : PlainParam param) : ReadsParam param.type := by
        have hsmall := Member.sizeOf_type_lt hmember
        refine readsParam hplain fun type htype hplain => hreads type ?_ hplain
        rcases htype with rfl | htype
        · omega
        · rw [← htype, TypeExpr.ellipsis.sizeOf_spec] at hsmall
          omega
      subst hsize
      cases spec with
      | ident name => exact spells_ident name
      | selector package name => exact spells_selector package name
      | array elem =>
          rw [TypeExpr.isPlain] at hplain
          exact spells_array (hreads elem (by simp) hplain)
      | map key value =>
          rw [TypeExpr.isPlain, Bool.and_eq_true] at hplain
          exact spells_map (hreads key (by rw [TypeExpr.map.sizeOf_spec]; omega) hplain.1)
            (hreads value (by rw [TypeExpr.map.sizeOf_spec]; omega) hplain.2)
      | pointer target =>
          rw [TypeExpr.isPlain] at hplain
          exact spells_pointer (hreads target (by simp) hplain)
      | chan dir elem =>
          rw [TypeExpr.isPlain] at hplain
          exact reads_chan (hreads elem (by rw [TypeExpr.chan.sizeOf_spec]; omega) hplain)
      | struct fields incomplete =>
          simp only [TypeExpr.isPlain, Bool.and_eq_true, Bool.not_eq_true'] at hplain
          obtain ⟨rfl, hfields⟩ := hplain
          refine reads_struct (plainFields hfields) fun field hfield => hreads _ ?_
            (plainFields hfields field hfield).type
          have hless := Member.sizeOf_type_lt hfield
          simp only [TypeExpr.struct.sizeOf_spec]
          omega
      | interface elements =>
          rw [TypeExpr.isPlain] at hplain
          refine reads_interface (plainElements hplain) fun element helement => hreads _ ?_
            (plainElements hplain element helement).type
          have hless := Member.sizeOf_type_lt helement
          simp only [TypeExpr.interface.sizeOf_spec]
          omega
      | func params results =>
          simp only [TypeExpr.isPlain, Bool.and_eq_true] at hplain
          obtain ⟨⟨⟨⟨hparamsUniform, hparams⟩, hresultsUniform⟩, hresults⟩, hvariadic⟩ := hplain
          have hresult : ∀ result ∈ results, PlainParam result ∧ result.type.isPlain = true := by
            intro result hresult
            refine ⟨plainParams hresults result hresult, ?_⟩
            rcases (plainParams hresults result hresult).type with htype | ⟨elem, htype, -⟩
            · exact htype
            · simpa [htype, TypeExpr.isVariadic] using
                List.all_eq_true.mp hvariadic result hresult
          exact reads_func (uniform_of_isUniform_members hparamsUniform)
            (uniform_of_isUniform_members hresultsUniform) (plainParams hparams) hresult
            (fun param hmember =>
              hparam (by rw [TypeExpr.func.sizeOf_spec]; omega) hmember
                (plainParams hparams param hmember))
            (fun result hmember =>
              hparam (by rw [TypeExpr.func.sizeOf_spec]; omega) hmember (hresult result hmember).1)
      | ellipsis elem => simp [TypeExpr.isPlain] at hplain
      | unsupported kind => simp [TypeExpr.isPlain] at hplain

end GoAtlas.Source
