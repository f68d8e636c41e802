import GoAtlas.Proofs.Source.ValueMeaning

/-!
# What derived declarations mean

A file is a list of items with terminators between them, and each item changes what is known of
the file.  Of the items that declare nothing only the first words matter.
-/

namespace GoAtlas.Source

open Grammar
open Forms (seq opt either token tokens phrase phrases role)

/-! ## Phrases -/

/-- A declared type, or a generic one. -/
inductive TypeSpecPhrase : List Word → List Decl → Prop where
  | plain {words : List Word} {name : String} {expr : TypeExpr} (htype : TypePhrase words expr) :
      TypeSpecPhrase ((.identifier, name) :: words) [.type { name, expr }]
  | same {words : List Word} {name assign : String} {expr : TypeExpr}
      (htype : TypePhrase words expr) :
      TypeSpecPhrase ((.identifier, name) :: (.assign, assign) :: words) [.type { name, expr }]
  | generic {words : List Word} {name opening param : String} {decls : List Decl} :
      TypeSpecPhrase ((.identifier, name) :: (.openBracket, opening) :: (.identifier, param) ::
        words) decls

/-- Some values with commas between them. -/
inductive ValuesPhrase : List Word → List ValueExpr → Prop where
  | list {items : List (List Word)} {body : List Word} {values : List ValueExpr}
      (hbody : Separated [.comma] items body) (hvalues : List.Forall₂ ValuePhrase items values) :
      ValuesPhrase body values

/-- What comes after the names of some constants. -/
inductive InitPhrase : Option TypeExpr → List ValueExpr → List Word → Prop where
  | none : InitPhrase none [] []
  | values {assign : String} {words : List Word} {values : List ValueExpr}
      (hvalues : ValuesPhrase words values) :
      InitPhrase none values ((.assign, assign) :: words)
  | typed {assign : String} {words more : List Word} {type : TypeExpr} {values : List ValueExpr}
      (htype : TypePhrase words type) (hvalues : ValuesPhrase more values) :
      InitPhrase (some type) values (words ++ (.assign, assign) :: more)

/-- Some constants with the same values. -/
inductive ConstSpecPhrase : List Word → List Decl → Prop where
  | spec {name : String} {names : List String} {tail words : List Word} {type : Option TypeExpr}
      {values : List ValueExpr} (hnames : NamesTail names tail)
      (hinit : InitPhrase type values words) :
      ConstSpecPhrase ((.identifier, name) :: (tail ++ words))
        ((name :: names).map fun name => .const { name, type, values })

/-- An import. -/
inductive ImportSpecPhrase : List Word → List ImportDecl → Prop where
  | plain {token : Token} {path : String} (htoken : token ∈ stringTokens) :
      ImportSpecPhrase [(token, path)] [{ path, localName := none }]
  | named {mark token : Token} {name path : String}
      (hmark : mark ∈ [Token.dot, .underscore, .identifier]) (htoken : token ∈ stringTokens) :
      ImportSpecPhrase [(mark, name), (token, path)] [{ path, localName := some name }]

/-- A single specification, or several in parentheses. -/
inductive GroupPhrase {α : Type} (spec : List Word → List α → Prop) :
    List Word → List α → Prop where
  | single {words : List Word} {entries : List α} (hspec : spec words entries) :
      GroupPhrase spec words entries
  | block {opening closing : String} {items : List (List Word)} {body : List Word}
      {entries : List (List α)} (hbody : Separated terminators items body)
      (hspecs : List.Forall₂ spec items entries) :
      GroupPhrase spec ((.openParen, opening) :: (body ++ [(.closeParen, closing)]))
        entries.flatten

/-- The body of a function. -/
inductive BodyPhrase : List Word → Prop where
  | none : BodyPhrase []
  | empty {opening closing : String} :
      BodyPhrase [(.openBrace, opening), (.closeBrace, closing)]
  | statements {opening : String} {word : Word} {words : List Word}
      (hword : word.1 ≠ .closeBrace) :
      BodyPhrase ((.openBrace, opening) :: word :: words)

/-- The first words of the items that can declare something. -/
def itemStarts : List Token := [.packageWord, .importWord, .typeWord, .constWord, .funcWord]

/-- An item of a file, with what it does to the file. -/
inductive ItemPhrase : List Word → (GoFile → GoFile) → Prop where
  | package {word name : String} :
      ItemPhrase [(.packageWord, word), (.identifier, name)]
        fun file => { file with package := name }
  | imports {word : String} {words : List Word} {imports : List ImportDecl}
      (hgroup : GroupPhrase ImportSpecPhrase words imports) :
      ItemPhrase ((.importWord, word) :: words)
        fun file => { file with imports := file.imports ++ imports }
  | types {word : String} {words : List Word} {decls : List Decl}
      (hgroup : GroupPhrase TypeSpecPhrase words decls) :
      ItemPhrase ((.typeWord, word) :: words)
        fun file => { file with decls := file.decls ++ decls }
  | consts {word : String} {words : List Word} {decls : List Decl}
      (hgroup : GroupPhrase ConstSpecPhrase words decls) :
      ItemPhrase ((.constWord, word) :: words)
        fun file => { file with decls := file.decls ++ decls }
  | func {word name : String} {words body : List Word} {params results : List FieldDecl}
      (hsignature : SignaturePhrase words params results) (hbody : BodyPhrase body) :
      ItemPhrase ((.funcWord, word) :: (.identifier, name) :: (words ++ body))
        fun file => { file with decls := file.decls ++ [.func { name, params, results }] }
  | genericFunc {word name opening : String} {words : List Word} {effect : GoFile → GoFile} :
      ItemPhrase ((.funcWord, word) :: (.identifier, name) :: (.openBracket, opening) :: words)
        effect
  | method {word opening : String} {words : List Word} {effect : GoFile → GoFile} :
      ItemPhrase ((.funcWord, word) :: (.openParen, opening) :: words) effect
  | other {word : Word} {words : List Word} {effect : GoFile → GoFile}
      (hword : word.1 ∉ itemStarts) : ItemPhrase (word :: words) effect

namespace Tree

variable {tree : Tree} {trees parts : List Tree} {rule : Rule} {extent : Extent} {step : Step}

/-! ## Declared types -/

theorem formsOf_typeSpec : formsOf .typeSpec =
    seq [role .name Forms.label, opt (role .typeParams (phrase .typeParams)),
      role .type type] :=
  (formsOf_eq _).trans rfl

theorem formsOf_typeAlias : formsOf .typeAlias =
    seq [role .name Forms.label, token .assign, role .type type] :=
  (formsOf_eq _).trans rfl

theorem formsOf_typeParams : formsOf .typeParams =
    seq [token .openBracket, phrase .typeParam, opt (phrase .typeParamTail), opt (token .comma),
      token .closeBracket] :=
  (formsOf_eq _).trans rfl

theorem formsOf_typeParam : formsOf .typeParam =
    seq [role .name (tokens [.identifier]), opt (phrase .nameTail), phrase .typeElem] :=
  (formsOf_eq _).trans rfl

theorem typeSpec_means (hform : haveForm (formsOf .typeSpec) parts) :
    TypeSpecPhrase (wordsOf parts) (Parts.toDecls .typeSpec (partsOf parts)) := by
  simp only [formsOf_typeSpec, haveForm_label_cons] at hform
  obtain ⟨_, name, _, _, rfl, hrest⟩ := hform
  rcases haveForm_opt_cons.mp hrest with hgeneric | hplain
  · simp only [phrase, haveForm_rolePhrases_cons, List.mem_singleton] at hgeneric
    obtain ⟨_, rfl, params, _, _, rfl, hparams, -⟩ := hgeneric
    have hparams := hparams.2.2
    simp only [formsOf_typeParams, haveForm_token_cons, haveForm_phrase_cons] at hparams
    obtain ⟨_, _, _, _, rfl, param, _, _, rfl, hparam, -⟩ := hparams
    have hparam := hparam.2.2
    simp only [formsOf_typeParam, haveForm_roleTokens_cons, List.mem_singleton] at hparam
    obtain ⟨lexeme, _, rfl, htoken, -⟩ := hparam
    simpa [htoken] using TypeSpecPhrase.generic
  · simp only [haveForm_roleType_cons, haveForm_nil] at hplain
    obtain ⟨type, _, rfl, htype, rfl⟩ := hplain
    obtain ⟨part, hpart, -, hrole, -, hphrase⟩ := type_means htype
    simpa [Parts.toDecls, Parts.typeDecl, Parts.name, Parts.typeOf, hpart, hrole] using
      TypeSpecPhrase.plain hphrase

theorem typeAlias_means (hform : haveForm (formsOf .typeAlias) parts) :
    TypeSpecPhrase (wordsOf parts) (Parts.toDecls .typeAlias (partsOf parts)) := by
  simp only [formsOf_typeAlias, haveForm_label_cons, haveForm_token_cons, haveForm_roleType_cons,
    haveForm_nil] at hform
  obtain ⟨_, name, _, _, rfl, _, _, _, _, rfl, type, _, rfl, htype, rfl⟩ := hform
  obtain ⟨part, hpart, -, hrole, -, hphrase⟩ := type_means htype
  simpa [Parts.toDecls, Parts.typeDecl, Parts.name, Parts.typeOf, hpart, hrole] using
    TypeSpecPhrase.same hphrase

/-! ## Constants -/

theorem formsOf_exprList : formsOf .exprList =
    seq [[[exprStep none]], opt (phrase .exprTail)] :=
  (formsOf_eq _).trans rfl

theorem formsOf_exprTail : formsOf .exprTail =
    either [seq [phrase .exprTail, phrase .exprTail],
      seq [tokens [.comma], [[exprStep none]]]] :=
  (formsOf_eq _).trans rfl

theorem formsOf_constSpec : formsOf .constSpec =
    seq [role .name (token .identifier), opt (role .name (phrase .constNameTail)),
      opt (seq [opt (role .type type), token .assign, role .value exprList])] :=
  (formsOf_eq _).trans rfl

theorem formsOf_constNameTail : formsOf .constNameTail =
    either [seq [phrase .constNameTail, phrase .constNameTail],
      seq [token .comma, [[{ symbols := [.token .identifier] }]]]] :=
  (formsOf_eq _).trans rfl

/-- A list of expressions means what its words say. -/
theorem exprList_means (hform : haveForm (formsOf .exprList) parts) :
    ValuesPhrase (wordsOf parts) (Parts.operands (partsOf parts)) := by
  rw [formsOf_exprList] at hform
  obtain ⟨first, more, rfl, hfirst, hmore⟩ := haveForm_step_cons.mp hform
  have hmore := haveForm_opt.mp (haveForm_single.mp hmore)
  have hlast : haveForm (tokens [.comma]) [] ∨ ([] : List Tree) = [] := Or.inr rfl
  obtain ⟨items, hitems, hseparated, hcontribute⟩ :=
    separated_of_list (by decide) formsOf_exprTail hfirst hmore hlast
  have hvalues : List.Forall₂ ValuePhrase (items.map words)
      (items.flatMap fun item => Parts.operands item.toParts) := by
    refine forall₂_items fun item hitem => ?_
    obtain ⟨part, hpart, -⟩ := value_means (hitems item hitem)
    exact ⟨part.meaning.value, by simp [hpart.parts, operandOf, hpart.counts], hpart.phrase⟩
  rw [← hcontribute.operands] at hvalues
  simpa using ValuesPhrase.list hseparated hvalues

/-- The texts of the identifiers among the names of some parts. -/
def identifiers (parts : Parts) : List String :=
  ((Parts.withRole parts .name).filter (·.isToken .identifier)).map (·.text)

theorem identifiers_cons {part : Part} {parts : Parts} : identifiers (part :: parts) =
    (if part.label.role = some .name ∧ part.isToken .identifier = true then [part.text] else []) ++
      identifiers parts := by
  by_cases hrole : part.label.role = some .name <;>
    by_cases htoken : part.isToken .identifier = true <;>
      simp [identifiers, Parts.withRole, hrole, htoken]

theorem identifiers_append {front back : Parts} :
    identifiers (front ++ back) = identifiers front ++ identifiers back := by
  simp [identifiers, Parts.withRole]

theorem identifiers_eq_nil {parts : Parts}
    (hparts : ∀ part ∈ parts, part.label.role ≠ some .name) : identifiers parts = [] := by
  have hnone : Parts.withRole parts .name = [] := by
    simpa [Parts.withRole] using hparts
  simp [identifiers, hnone]

/-- The names of some constants after the first one. -/
theorem constNames_means (hform : haveForm (opt (role .name (phrase .constNameTail))) trees) :
    NamesTail (identifiers (partsOf trees)) (wordsOf trees) ∧
      ∀ part ∈ partsOf trees, part.label.role = some .name := by
  rcases haveForm_opt.mp hform with hmore | rfl
  · rw [← haveForm_single, phrase, haveForm_rolePhrases_cons] at hmore
    simp only [List.mem_singleton, haveForm_nil] at hmore
    obtain ⟨_, rfl, parts, extent, _, rfl, hderived, rfl⟩ := hmore
    obtain ⟨groups, -, hgroups, hwords, -, hparts⟩ :=
      hderived.repeated (by decide) formsOf_constNameTail
    have hhidden : Rule.isHidden .constNameTail = true := by decide
    simp only [wordsOf_cons, words_node, hwords, wordsOf_nil, List.append_nil, partsOf_cons,
      toParts, hhidden, if_true, hparts, partsOf_nil]
    refine ⟨?_, fun part hpart => ?_⟩
    rotate_left
    · obtain ⟨inner, -, rfl⟩ := List.mem_map.mp hpart
      rfl
    clear hform hderived hwords hparts
    induction groups with
    | nil => exact .nil
    | cons group groups ih =>
        have hgroup := hgroups group (List.mem_cons_self ..)
        have htail := ih fun other hother => hgroups other (List.mem_cons_of_mem _ hother)
        simp only [haveForm_token_cons, haveForm_step_cons, derives_token, haveForm_nil] at hgroup
        obtain ⟨_, _, _, _, rfl, _, _, rfl, ⟨_, name, _, rfl⟩, rfl⟩ := hgroup
        simpa [identifiers_cons, Part.inRole, Part.isToken] using NamesTail.cons htail
  · exact ⟨.nil, by simp⟩

theorem exprList_isHidden : Rule.isHidden .exprList = false := by decide

/-- What comes after the names of some constants. -/
theorem init_means (hform : haveForm (opt (seq [opt (role .type type), token .assign,
      role .value exprList])) trees) :
    InitPhrase ((Parts.role? (partsOf trees) .type).map (·.meaning.type))
        (Parts.valuesOf (partsOf trees) .value) (wordsOf trees) ∧
      ∀ part ∈ partsOf trees, part.label.role ≠ some .name := by
  rcases haveForm_opt.mp hform with hinit | rfl
  · simp only [haveForm_opt_cons, haveForm_roleType_cons, haveForm_token_cons, exprList, phrase,
      haveForm_rolePhrases_cons, List.mem_singleton, haveForm_nil] at hinit
    obtain ⟨type, _, rfl, htype, _, _, _, _, rfl, _, rfl, values, _, _, rfl, hvalues, rfl⟩ |
      ⟨_, _, _, _, rfl, _, rfl, values, _, _, rfl, hvalues, rfl⟩ := hinit
    · obtain ⟨part, hpart, -, hrole, -, hphrase⟩ := type_means htype
      constructor
      · simpa [hpart, hrole, Parts.valuesOf, toParts_node, exprList_isHidden, phraseMeaning,
          Parts.toValue] using InitPhrase.typed hphrase (exprList_means hvalues.2.2)
      · simp [hpart, hrole, toParts_node, exprList_isHidden]
    · constructor
      · simpa [Parts.valuesOf, toParts_node, exprList_isHidden, phraseMeaning, Parts.toValue]
          using InitPhrase.values (exprList_means hvalues.2.2)
      · simp [toParts_node, exprList_isHidden]
  · exact ⟨.none, by simp⟩

theorem constDecls_eq (parts : Parts) : Parts.toDecls .constSpec parts =
    (identifiers parts).map fun name => .const
      { name, type := (Parts.role? parts .type).map (·.meaning.type)
        values := Parts.valuesOf parts .value } := by
  simp [Parts.toDecls, Parts.constDecls, identifiers]

theorem constSpec_means (hform : haveForm (formsOf .constSpec) parts) :
    ConstSpecPhrase (wordsOf parts) (Parts.toDecls .constSpec (partsOf parts)) := by
  rw [formsOf_constSpec] at hform
  simp only [token, haveForm_roleTokens_cons] at hform
  obtain ⟨⟨_, _, name, _⟩, _, rfl, hname, hrest⟩ := hform
  cases List.mem_singleton.mp hname
  obtain ⟨tail, init, rfl, htail, hinit⟩ := haveForm_cons.mp hrest
  obtain ⟨hnames, htailRoles⟩ := constNames_means htail
  obtain ⟨hinit, hinitRoles⟩ := init_means (haveForm_single.mp hinit)
  have htailType : ∀ part ∈ partsOf tail, part.label.role ≠ some .type := fun part hpart => by
    simp [htailRoles part hpart]
  have htailValue : ∀ part ∈ partsOf tail, part.label.role ≠ some .value := fun part hpart => by
    simp [htailRoles part hpart]
  have hphrase : ConstSpecPhrase ((.identifier, String.ofList name) ::
      (wordsOf tail ++ wordsOf init)) _ := .spec hnames hinit
  simpa [constDecls_eq, identifiers_cons, identifiers_append, identifiers_eq_nil hinitRoles,
    Part.isToken, Parts.valuesOf, role?_append_of_ne htailType, role?_append_of_ne htailValue]
    using hphrase

/-! ## Imports -/

theorem formsOf_importSpec : formsOf .importSpec =
    seq [opt (role .name (either
        [Forms.oneOf [.rule .importDot, .token .underscore], Forms.label])),
      role .path (tokens stringTokens)] :=
  (formsOf_eq _).trans rfl

theorem formsOf_importDot : formsOf .importDot = seq [token .dot] :=
  (formsOf_eq _).trans rfl

theorem importSpec_means (hform : haveForm (formsOf .importSpec) parts) :
    ImportSpecPhrase (wordsOf parts) (Parts.toImports .importSpec (partsOf parts)) := by
  rw [formsOf_importSpec] at hform
  rcases haveForm_opt_cons.mp hform with hnamed | hplain
  · obtain ⟨front, _, rfl, hname, hpath⟩ := haveForm_cons.mp hnamed
    simp only [haveForm_roleTokens_cons, haveForm_nil] at hpath
    obtain ⟨path, _, rfl, hpath, rfl⟩ := hpath
    rw [haveForm_role_either_cons, haveForm_role_either_cons] at hname
    obtain hmark | hlabel | hnone := hname
    · obtain ⟨tree, rfl, htree⟩ := haveForm_step.mp hmark
      obtain ⟨hsymbol, hlabel, hderived⟩ := derives_iff.mp htree
      cases tree with
      | leaf label lexeme =>
          cases hlabel
          have htoken : lexeme.token = .underscore := by simpa [symbol] using hsymbol
          simpa [Parts.toImports, htoken] using ImportSpecPhrase.named (by decide) hpath
      | node label rule inner extent =>
          cases hlabel
          have hrule : rule = .importDot := by simpa [symbol] using hsymbol
          subst hrule
          have hdot := hderived.2.2
          simp only [formsOf_importDot, haveForm_token_cons, haveForm_nil] at hdot
          obtain ⟨_, _, _, _, rfl, rfl⟩ := hdot
          have hvisible : Rule.isHidden .importDot = false := by decide
          simpa [Parts.toImports, toParts_node, hvisible, phraseText, Parts.proper,
            Part.tokenCounts] using ImportSpecPhrase.named (by decide) hpath
    · obtain ⟨tree, rfl, htree⟩ := haveForm_step.mp hlabel
      obtain ⟨_, name, _, rfl⟩ := derives_token.mp htree
      simpa [Parts.toImports] using ImportSpecPhrase.named (by decide) hpath
    · simp [role, either, haveForm] at hnone
  · simp only [haveForm_roleTokens_cons, haveForm_nil] at hplain
    obtain ⟨path, _, rfl, hpath, rfl⟩ := hplain
    simpa [Parts.toImports] using ImportSpecPhrase.plain hpath

/-! ## Groups -/

/-- What some phrases of one kind list is what their parts list. -/
theorem forall₂_entries {α : Type} {phrase : List Word → List α → Prop} {f : Part → List α}
    {items : List Tree} (hitems : ∀ item ∈ items, phrase item.words (item.toParts.flatMap f)) :
    List.Forall₂ phrase (items.map words) (items.map fun item => item.toParts.flatMap f) := by
  induction items with
  | nil => exact .nil
  | cons item items ih =>
      exact .cons (hitems item (List.mem_cons_self ..))
        (ih fun other hother => hitems other (List.mem_cons_of_mem _ hother))

/-- A single specification, or several in parentheses with a terminator after each. -/
theorem group_means {α : Type} {phrase : List Word → List α → Prop} {f : Part → List α}
    {again : Rule} (hrepetition : again.isRepetition = true)
    (hagain : formsOf again = either [seq [Forms.phrase again, Forms.phrase again],
      seq [[[step]], tokens terminators]])
    (hsilent : ∀ token text, f
      { symbol := .token token, label := {}, text, broken := false
        meaning := tokenMeaning {} token text } = [])
    (hspec : ∀ tree, derives step tree = true → phrase tree.words (tree.toParts.flatMap f))
    (hform : haveForm (either [[[step]],
      seq [token .openParen, opt (Forms.phrase again), token .closeParen]]) trees) :
    GroupPhrase phrase (wordsOf trees) ((partsOf trees).flatMap f) := by
  simp only [haveForm_either_cons, haveForm_either_nil, or_false] at hform
  rcases hform with hone | hblock
  · obtain ⟨tree, rfl, htree⟩ := haveForm_step.mp hone
    simpa using GroupPhrase.single (hspec tree htree)
  · obtain ⟨_, _, _, body, _, _, _, rfl, hbody⟩ := haveForm_between.mp hblock
    obtain ⟨items, hitems, hseparated, hparts⟩ : ∃ items : List Tree,
        (∀ item ∈ items, derives step item = true) ∧
        Separated terminators (items.map words) (wordsOf body) ∧
        (partsOf body).flatMap f = items.flatMap fun item => (toParts item).flatMap f := by
      rcases haveForm_opt.mp hbody with hmore | rfl
      · obtain ⟨parts, extent, rfl, hderived⟩ := haveForm_phrase.mp hmore
        obtain ⟨groups, -, hgroups, hwords, -, hparts⟩ := hderived.repeated hrepetition hagain
        obtain ⟨items, hitems, hseparated, -, hcontribute⟩ :=
          separated_of_terminated hgroups (Or.inl rfl)
        refine ⟨items, hitems, by simpa [hwords] using hseparated, ?_⟩
        simpa [toParts_repetition hrepetition, hparts] using hcontribute f fun lexeme _ => by
          simp [hsilent]
      · exact ⟨[], by simp, .none .nil, rfl⟩
    have hentries : List.Forall₂ phrase (items.map words)
        (items.map fun item => item.toParts.flatMap f) :=
      forall₂_entries fun item hitem => hspec item (hitems item hitem)
    simpa [hsilent, hparts, ← List.flatMap_def] using GroupPhrase.block hseparated hentries

theorem formsOf_typeDecl : formsOf .typeDecl =
    seq [token .typeWord, either [phrases [.typeSpec, .typeAlias],
      seq [token .openParen, opt (phrase .typeItems), token .closeParen]]] :=
  (formsOf_eq _).trans rfl

theorem formsOf_typeItems : formsOf .typeItems =
    either [seq [phrase .typeItems, phrase .typeItems],
      seq [phrases [.typeSpec, .typeAlias], tokens terminators]] :=
  (formsOf_eq _).trans rfl

theorem formsOf_constDecl : formsOf .constDecl =
    seq [token .constWord, either [phrase .constSpec,
      seq [token .openParen, opt (phrase .constItems), token .closeParen]]] :=
  (formsOf_eq _).trans rfl

theorem formsOf_constItems : formsOf .constItems =
    either [seq [phrase .constItems, phrase .constItems],
      seq [phrase .constSpec, tokens terminators]] :=
  (formsOf_eq _).trans rfl

theorem formsOf_importDecl : formsOf .importDecl =
    seq [token .importWord, phrases [.importSpec, .importGroup]] :=
  (formsOf_eq _).trans rfl

theorem formsOf_importGroup : formsOf .importGroup =
    seq [token .openParen,
      opt (seq [[[{ symbols := [.rule .importSpec] }]], opt (phrase .importTail),
        opt (tokens terminators)]), token .closeParen] :=
  (formsOf_eq _).trans rfl

theorem formsOf_importTail : formsOf .importTail =
    either [seq [phrase .importTail, phrase .importTail],
      seq [tokens terminators, [[{ symbols := [.rule .importSpec] }]]]] :=
  (formsOf_eq _).trans rfl

/-! ## Items -/

/-- The step of a declared type. -/
def typeSpecStep : Step := { symbols := [.rule .typeSpec, .rule .typeAlias] }

theorem typeSpecStep_means (htree : derives typeSpecStep tree = true) :
    TypeSpecPhrase tree.words (tree.toParts.flatMap (·.meaning.decls)) := by
  obtain ⟨rule, hrule, parts, extent, rfl, hderived⟩ :=
    (@derives_phrases tree [.typeSpec, .typeAlias] none false).mp htree
  simp only [List.mem_cons, List.not_mem_nil, or_false] at hrule
  rcases hrule with rfl | rfl
  · have hphrase := typeSpec_means hderived.2.2
    simpa (disch := decide) [toParts_node, phraseMeaning] using hphrase
  · have hphrase := typeAlias_means hderived.2.2
    simpa (disch := decide) [toParts_node, phraseMeaning] using hphrase

theorem typeDecl_means (hform : haveForm (formsOf .typeDecl) parts) :
    ∃ word words, wordsOf parts = (.typeWord, word) :: words ∧
      GroupPhrase TypeSpecPhrase words ((partsOf parts).flatMap (·.meaning.decls)) := by
  simp only [formsOf_typeDecl, haveForm_token_cons] at hform
  obtain ⟨_, word, _, rest, rfl, hrest⟩ := hform
  have hgroup := group_means (by decide) formsOf_typeItems (fun _ _ => rfl)
    (fun _ => typeSpecStep_means) (haveForm_single.mp hrest)
  exact ⟨String.ofList word, wordsOf rest, by simp, by simpa [tokenMeaning] using hgroup⟩

theorem constDecl_means (hform : haveForm (formsOf .constDecl) parts) :
    ∃ word words, wordsOf parts = (.constWord, word) :: words ∧
      GroupPhrase ConstSpecPhrase words ((partsOf parts).flatMap (·.meaning.decls)) := by
  simp only [formsOf_constDecl, haveForm_token_cons] at hform
  obtain ⟨_, word, _, rest, rfl, hrest⟩ := hform
  have hspec : ∀ tree, derives { symbols := [.rule .constSpec] } tree = true →
      ConstSpecPhrase tree.words (tree.toParts.flatMap (·.meaning.decls)) := fun tree htree => by
    obtain ⟨parts, extent, rfl, hderived⟩ := derives_phrase.mp htree
    have hphrase := constSpec_means hderived.2.2
    simpa (disch := decide) [toParts_node, phraseMeaning] using hphrase
  have hgroup := group_means (by decide) formsOf_constItems (fun _ _ => rfl) hspec
    (haveForm_single.mp hrest)
  exact ⟨String.ofList word, wordsOf rest, by simp, by simpa [tokenMeaning] using hgroup⟩

theorem importSpecStep_means (htree : derives { symbols := [.rule .importSpec] } tree = true) :
    ImportSpecPhrase tree.words (tree.toParts.flatMap (·.meaning.imports)) := by
  obtain ⟨parts, extent, rfl, hderived⟩ := derives_phrase.mp htree
  have hphrase := importSpec_means hderived.2.2
  simpa (disch := decide) [toParts_node, phraseMeaning] using hphrase

theorem importDecl_means (hform : haveForm (formsOf .importDecl) parts) :
    ∃ word words, wordsOf parts = (.importWord, word) :: words ∧
      GroupPhrase ImportSpecPhrase words ((partsOf parts).flatMap (·.meaning.imports)) := by
  simp only [formsOf_importDecl, haveForm_token_cons] at hform
  obtain ⟨_, word, _, rest, rfl, hrest⟩ := hform
  refine ⟨String.ofList word, wordsOf rest, by simp, ?_⟩
  obtain ⟨tree, rfl, htree⟩ := haveForm_step.mp (haveForm_single.mp hrest)
  obtain ⟨rule, hrule, inner, extent, rfl, hderived⟩ := derives_phrases.mp htree
  simp only [List.mem_cons, List.not_mem_nil, or_false] at hrule
  rcases hrule with rfl | rfl
  · have hphrase := GroupPhrase.single (importSpec_means hderived.2.2)
    simpa (disch := decide) [toParts_node, phraseMeaning, tokenMeaning] using hphrase
  · have hform := hderived.2.2
    rw [formsOf_importGroup, haveForm_between] at hform
    obtain ⟨_, _, _, body, _, _, _, rfl, hbody⟩ := hform
    obtain ⟨items, hitems, hseparated, hcontribute⟩ :=
      separated_of_opt (by decide) formsOf_importTail hbody
    have hentries : List.Forall₂ ImportSpecPhrase (items.map words)
        (items.map fun item => item.toParts.flatMap (·.meaning.imports)) :=
      forall₂_entries fun item hitem => importSpecStep_means (hitems item hitem)
    have himports := hcontribute.parts (·.meaning.imports) fun _ _ => rfl
    simpa (disch := decide) [toParts_node, phraseMeaning, Parts.toImports, tokenMeaning,
      himports, ← List.flatMap_def] using GroupPhrase.block hseparated hentries

/-! ## Functions -/

theorem formsOf_funcDecl : formsOf .funcDecl =
    seq [token .funcWord, role .name (tokens [.identifier]),
      opt (role .typeParams (phrase .typeParams)), signature, opt (phrase .block)] :=
  (formsOf_eq _).trans rfl

theorem formsOf_methodDecl : formsOf .methodDecl =
    seq [token .funcWord, phrase .params, role .name Forms.label, signature,
      opt (phrase .block)] :=
  (formsOf_eq _).trans rfl

theorem formsOf_block : formsOf .block =
    seq [token .openBrace, opt (phrase .statements), token .closeBrace] :=
  (formsOf_eq _).trans rfl

/-- The rules of statements that are no declarations. -/
def otherStatements : List Rule :=
  [.simpleStatement, .returnStatement, .goStatement, .deferStatement, .ifStatement, .forStatement,
    .exprSwitch, .typeSwitch, .selectStatement, .labeledStatement, .fallthroughStatement,
    .breakStatement, .continueStatement, .gotoStatement, .block, .emptyStatement]

/-- The rules of statements that are no declarations, and those that they can start with. -/
def statementRules : List Rule :=
  otherStatements ++ [.exprStatement, .sendStatement, .incStatement, .decStatement,
    .assignStatement, .shortVarDecl, .exprList] ++
    leadingRules.filter fun rule => !([Rule.funcType, .funcLiteral].contains rule)

/-- The rules that the body of a function can start with. -/
def bodyRules : List Rule :=
  [.statements, .statement, .declaration, .constDecl, .typeDecl, .varDecl, .emptyLabeledStatement,
    .funcType, .funcLiteral] ++ statementRules

theorem statementRules_start :
    startOutside statementRules [.funcType, .funcLiteral] itemStarts = true := by
  decide +kernel

theorem bodyRules_start : startOutside bodyRules [] [.closeBrace] = true := by
  decide +kernel

theorem block_means (hform : haveForm (opt (phrase .block)) trees) :
    BodyPhrase (wordsOf trees) ∧
      ∀ part ∈ partsOf trees, part.label.role = none := by
  rcases haveForm_opt.mp hform with hblock | rfl
  · obtain ⟨inner, extent, rfl, hderived⟩ := haveForm_phrase.mp hblock
    have hvisible : Rule.isHidden .block = false := by decide
    have hinner := hderived.2.2
    rw [formsOf_block, haveForm_between] at hinner
    obtain ⟨_, _, _, body, _, _, _, rfl, hbody⟩ := hinner
    refine ⟨?_, by simp [toParts_node, hvisible]⟩
    rcases haveForm_opt.mp hbody with hstatements | rfl
    · obtain ⟨statements, _, rfl, hfirst⟩ := haveForm_phrase.mp hstatements
      obtain ⟨word, rest, hwords, hword⟩ := hfirst.startsOutside bodyRules_start (by decide)
      simpa [hwords] using BodyPhrase.statements (by simpa using hword)
    · simpa using BodyPhrase.empty
  · exact ⟨.none, by simp⟩

theorem funcDecl_means (hform : haveForm (formsOf .funcDecl) parts) :
    ItemPhrase (wordsOf parts) fun file =>
      { file with decls := file.decls ++ Parts.toDecls .funcDecl (partsOf parts) } := by
  simp only [formsOf_funcDecl, haveForm_token_cons, haveForm_roleTokens_cons,
    List.mem_singleton] at hform
  obtain ⟨_, word, _, _, rfl, ⟨_, _, name, _⟩, rest, rfl, rfl, hrest⟩ := hform
  rcases haveForm_opt_cons.mp hrest with hgeneric | hplain
  · simp only [phrase, haveForm_rolePhrases_cons, List.mem_singleton] at hgeneric
    obtain ⟨_, rfl, params, _, _, rfl, hparams, -⟩ := hgeneric
    have hopen := hparams.2.2
    simp only [formsOf_typeParams, haveForm_token_cons] at hopen
    obtain ⟨_, _, _, _, rfl, -⟩ := hopen
    simpa using ItemPhrase.genericFunc
  · obtain ⟨front, body, rfl, hsignature, hbody⟩ := haveForm_cons.mp hplain
    obtain ⟨hbody, hroles⟩ := block_means (haveForm_single.mp hbody)
    have hphrase := signature_means (typesBelow _) (Nat.lt_succ_self _) hsignature
    have hback : ∀ part ∈ partsOf body,
        part.label.role ≠ some .params ∧ part.label.role ≠ some .result := fun part hpart => by
      simp [hroles part hpart]
    have hfunc : ItemPhrase ((.funcWord, String.ofList word) ::
        (.identifier, String.ofList name) :: (wordsOf front ++ wordsOf body)) _ :=
      .func hphrase hbody
    simpa [Parts.toDecls, Parts.name, signature_cons, signature_append hback] using hfunc

/-! ## Items -/

theorem formsOf_statement :
    formsOf .statement = phrases (.declaration :: otherStatements) :=
  (formsOf_eq _).trans rfl

theorem formsOf_declaration : formsOf .declaration =
    phrases [.constDecl, .typeDecl, .varDecl] :=
  (formsOf_eq _).trans rfl

theorem formsOf_varDecl : formsOf .varDecl =
    seq [token .varWord, phrases [.varSpec, .varGroup]] :=
  (formsOf_eq _).trans rfl

theorem formsOf_packageClause : formsOf .packageClause =
    seq [token .packageWord, Forms.label] :=
  (formsOf_eq _).trans rfl

theorem formsOf_funcLiteral : formsOf .funcLiteral =
    seq [token .funcWord, role .params (phrase .params),
      opt (role .result (phrases [.params, .simpleType])), phrase .block] :=
  (formsOf_eq _).trans rfl

/-- An item of a file means what its words say. -/
def IsItem (tree : Tree) : Prop :=
  ∃ effect, ItemPhrase tree.words effect ∧
    ∀ file, (toParts tree).foldl addPart file = effect file

theorem params_start {label : Label} (hderived : (node label .params parts extent).IsDerived) :
    ∃ opening words, wordsOf parts = (.openParen, opening) :: words := by
  have hform := hderived.2.2
  rw [formsOf_params, haveForm_token_cons] at hform
  obtain ⟨_, opening, _, rest, rfl, -⟩ := hform
  exact ⟨String.ofList opening, wordsOf rest, by simp⟩

/-- What starts with a function without name is no item that declares something. -/
theorem function_start {label : Label} (hrule : rule ∈ [Rule.funcType, .funcLiteral])
    (hderived : (node label rule parts extent).IsDerived) :
    ∃ word opening words,
      wordsOf parts = (.funcWord, word) :: (.openParen, opening) :: words := by
  have hform := hderived.2.2
  have hparams : ∃ lead text after inner extent rest,
      parts = leaf {} ⟨.funcWord, lead, text, after⟩ ::
        node { role := some .params } .params inner extent :: rest ∧
        (node { role := some .params } .params inner extent).IsDerived := by
    simp only [List.mem_cons, List.not_mem_nil, or_false] at hrule
    rcases hrule with rfl | rfl
    · simp only [formsOf_funcType, signature, phrase, haveForm_token_cons, haveForm_seq_cons,
        List.cons_append, haveForm_rolePhrases_cons, List.mem_singleton] at hform
      obtain ⟨lead, text, after, _, rfl, _, rfl, inner, extent, rest, rfl, hinner, -⟩ := hform
      exact ⟨lead, text, after, inner, extent, rest, rfl, hinner⟩
    · simp only [formsOf_funcLiteral, phrase, haveForm_token_cons,
        haveForm_rolePhrases_cons, List.mem_singleton] at hform
      obtain ⟨lead, text, after, _, rfl, _, rfl, inner, extent, rest, rfl, hinner, -⟩ := hform
      exact ⟨lead, text, after, inner, extent, rest, rfl, hinner⟩
  obtain ⟨_, word, _, inner, _, rest, rfl, hinner⟩ := hparams
  obtain ⟨opening, words, hwords⟩ := params_start hinner
  exact ⟨String.ofList word, opening, words ++ wordsOf rest, by simp [hwords]⟩

theorem statement_means {inner : List Tree} (hrule : rule ∈ statementRules)
    (hderived : (node {} rule inner extent).IsDerived) (effect : GoFile → GoFile) :
    ItemPhrase (wordsOf inner) effect := by
  rcases IsDerived.start statementRules_start inner hderived hrule with
    ⟨word, rest, hwords, hword⟩ | ⟨_, _, start, _, rest, hmore, hstart, hwords⟩
  · rw [hwords]
    exact .other hword
  · obtain ⟨word, opening, words, hfunc⟩ := function_start hmore hstart
    rw [hwords, hfunc]
    exact .method

/-- A phrase that is only a means of the grammar is an item if its part is. -/
theorem IsItem.of_hidden (hhidden : rule.isHidden = true) (hitem : tree.IsItem) :
    (node {} rule [tree] extent).IsItem := by
  obtain ⟨effect, hphrase, heffect⟩ := hitem
  have hparts : toParts (node {} rule [tree] extent) = toParts tree := by
    simp [toParts, hhidden, Part.inRole]
  exact ⟨effect, by simpa using hphrase, by rwa [hparts]⟩

theorem declaration_means (hrule : rule ∈ [Rule.constDecl, .typeDecl, .varDecl])
    (hderived : (node {} rule parts extent).IsDerived) :
    (node {} rule parts extent).IsItem := by
  have hform := hderived.2.2
  simp only [List.mem_cons, List.not_mem_nil, or_false] at hrule
  rcases hrule with rfl | rfl | rfl
  · obtain ⟨word, words, hwords, hgroup⟩ := constDecl_means hform
    have hitem : ItemPhrase ((.constWord, word) :: words) _ := .consts hgroup
    rw [← hwords] at hitem
    refine ⟨_, hitem, fun file => ?_⟩
    simp (disch := decide) [toParts_node, addPart, phraseMeaning, Parts.toDecls]
  · obtain ⟨word, words, hwords, hgroup⟩ := typeDecl_means hform
    have hitem : ItemPhrase ((.typeWord, word) :: words) _ := .types hgroup
    rw [← hwords] at hitem
    refine ⟨_, hitem, fun file => ?_⟩
    simp (disch := decide) [toParts_node, addPart, phraseMeaning, Parts.toDecls]
  · rw [formsOf_varDecl, haveForm_token_cons] at hform
    obtain ⟨_, word, _, rest, rfl, -⟩ := hform
    refine ⟨fun file => file, ?_, fun file => ?_⟩
    · have hword : Token.varWord ∉ itemStarts := by decide
      simpa using ItemPhrase.other hword
    · simp (disch := decide) [toParts_node, addPart]

theorem statement_isHidden : Rule.isHidden .statement = true := by decide

theorem declaration_isHidden : Rule.isHidden .declaration = true := by decide

theorem item_means
    (hrule : rule ∈ [Rule.statement, .packageClause, .funcDecl, .methodDecl, .importDecl])
    (hderived : (node {} rule parts extent).IsDerived) :
    (node {} rule parts extent).IsItem := by
  have hform := hderived.2.2
  simp only [List.mem_cons, List.not_mem_nil, or_false] at hrule
  rcases hrule with rfl | rfl | rfl | rfl | rfl
  · rw [formsOf_statement, haveForm_phrases] at hform
    obtain ⟨rule, hrule, inner, extent, rfl, hinner⟩ := hform
    refine IsItem.of_hidden statement_isHidden ?_
    rcases List.mem_cons.mp hrule with rfl | hrule
    · have hform := hinner.2.2
      rw [formsOf_declaration, haveForm_phrases] at hform
      obtain ⟨rule, hrule, inner, extent, rfl, hdeclared⟩ := hform
      exact .of_hidden declaration_isHidden (declaration_means hrule hdeclared)
    · have hstatement : rule ∈ statementRules :=
        List.mem_append_left _ (List.mem_append_left _ hrule)
      exact ⟨_, statement_means hstatement hinner _, fun _ => rfl⟩
  · rw [formsOf_packageClause, haveForm_token_cons] at hform
    obtain ⟨_, word, _, rest, rfl, hrest⟩ := hform
    obtain ⟨tree, rfl, hlabel⟩ := haveForm_step.mp (haveForm_single.mp hrest)
    obtain ⟨_, name, _, rfl⟩ := derives_token.mp hlabel
    exact ⟨_, .package, fun _ => rfl⟩
  · refine ⟨_, funcDecl_means hform, fun file => ?_⟩
    simp (disch := decide) [toParts_node, addPart, phraseMeaning]
  · simp only [formsOf_methodDecl, haveForm_token_cons, haveForm_phrase_cons] at hform
    obtain ⟨_, word, _, _, rfl, params, _, rest, rfl, hparams, -⟩ := hform
    obtain ⟨opening, words, hwords⟩ := params_start hparams
    exact ⟨_, by simpa [hwords] using ItemPhrase.method, fun _ => rfl⟩
  · obtain ⟨word, words, hwords, hgroup⟩ := importDecl_means hform
    have hitem : ItemPhrase ((.importWord, word) :: words) _ := .imports hgroup
    rw [← hwords] at hitem
    refine ⟨_, hitem, fun file => ?_⟩
    simp (disch := decide) [toParts_node, addPart, phraseMeaning, Parts.toImports]

/-! ## Files -/

/-- The step of an item of a file. -/
def itemStep : Step :=
  { symbols := [.rule .statement, .rule .packageClause, .rule .funcDecl, .rule .methodDecl,
      .rule .importDecl] }

theorem formsOf_sourceFile : formsOf .sourceFile =
    either [seq [phrase .fileItems, phrases topLevel], phrases (.fileItems :: topLevel)] :=
  (formsOf_eq _).trans rfl

theorem formsOf_fileItems : formsOf .fileItems =
    either [seq [phrase .fileItems, phrase .fileItems],
      seq [[[itemStep]], tokens terminators]] :=
  (formsOf_eq _).trans rfl

/-- The parts that are phrases. -/
def phrasesAmong (part : Part) : List Part :=
  match part.symbol with
  | .token _ => []
  | .rule _ => [part]

/-- Tokens do nothing to a file. -/
theorem foldl_addPart (parts : Parts) (file : GoFile) :
    parts.foldl addPart file = (parts.flatMap phrasesAmong).foldl addPart file := by
  induction parts generalizing file with
  | nil => rfl
  | cons part parts ih =>
      rw [List.foldl_cons, List.flatMap_cons, List.foldl_append, ih]
      cases hsymbol : part.symbol with
      | token token => simp [addPart, phrasesAmong, hsymbol]
      | rule rule => simp [phrasesAmong, hsymbol]

theorem foldl_items {items : List Tree} (hitems : ∀ item ∈ items, item.IsItem) :
    ∃ effects, List.Forall₂ ItemPhrase (items.map words) effects ∧
      ∀ file, (items.flatMap fun item => (toParts item).flatMap phrasesAmong).foldl addPart file =
        effects.foldl (fun file effect => effect file) file := by
  induction items with
  | nil => exact ⟨[], .nil, fun _ => rfl⟩
  | cons item items ih =>
      obtain ⟨effects, hphrases, heffects⟩ :=
        ih fun other hother => hitems other (List.mem_cons_of_mem _ hother)
      obtain ⟨effect, hphrase, heffect⟩ := hitems item (List.mem_cons_self ..)
      refine ⟨effect :: effects, .cons hphrase hphrases, fun file => ?_⟩
      rw [List.flatMap_cons, List.foldl_append, ← foldl_addPart, heffect, heffects]
      rfl

theorem derives_topLevel (hrule : rule ∈ topLevel)
    (hderived : (node {} rule parts extent).IsDerived) :
    derives itemStep (node {} rule parts extent) = true := by
  refine derives_iff.mpr ⟨?_, rfl, hderived⟩
  simp only [topLevel, List.mem_cons, List.not_mem_nil, or_false] at hrule
  rcases hrule with rfl | rfl | rfl | rfl <;> simp [itemStep, symbol]

/-- A file consists of items that are each followed by a terminator, and perhaps one more item. -/
theorem items_of_sourceFile (hform : haveForm (formsOf .sourceFile) parts) :
    ∃ (groups : List (List Tree)) (last : List Tree),
      (∀ group ∈ groups, haveForm (seq [[[itemStep]], tokens terminators]) group) ∧
      (last = [] ∨ ∃ tree, last = [tree]) ∧
      (∀ item ∈ last, derives itemStep item = true) ∧
      wordsOf parts = groups.flatMap wordsOf ++ wordsOf last ∧
      partsOf parts = groups.flatMap partsOf ++ partsOf last := by
  have hrepeated : ∀ {inner extent}, (node {} .fileItems inner extent).IsDerived →
      ∃ groups : List (List Tree),
        (∀ group ∈ groups, haveForm (seq [[[itemStep]], tokens terminators]) group) ∧
        wordsOf inner = groups.flatMap wordsOf ∧ partsOf inner = groups.flatMap partsOf := by
    intro inner extent hderived
    obtain ⟨groups, -, hgroups, hwords, -, hparts⟩ :=
      hderived.repeated (by decide) formsOf_fileItems
    exact ⟨groups, hgroups, hwords, hparts⟩
  have hhidden : ∀ {inner extent}, toParts (node {} .fileItems inner extent) = partsOf inner :=
    toParts_repetition (by decide)
  simp only [formsOf_sourceFile, haveForm_either_cons, haveForm_either_nil, or_false,
    haveForm_phrase_cons, haveForm_single, haveForm_phrases, List.mem_cons] at hform
  obtain ⟨inner, _, _, rfl, hinner, rule, hrule, top, after, rfl, htop⟩ |
    ⟨rule, rfl | hrule, inner, extent, rfl, hinner⟩ := hform
  · obtain ⟨groups, hgroups, hwords, hparts⟩ := hrepeated hinner
    refine ⟨groups, [node {} rule top after], hgroups, Or.inr ⟨_, rfl⟩, ?_, by simp [hwords],
      by simp [hhidden, hparts]⟩
    simpa using derives_topLevel hrule htop
  · obtain ⟨groups, hgroups, hwords, hparts⟩ := hrepeated hinner
    exact ⟨groups, [], hgroups, Or.inl rfl, by simp, by simp [hwords], by simp [hhidden, hparts]⟩
  · refine ⟨[], [node {} rule inner extent], by simp, Or.inr ⟨_, rfl⟩, ?_, by simp, by simp⟩
    simpa using derives_topLevel hrule hinner

/-- A file means what its words say. -/
theorem file_means (hreading : tree.isReading = true) :
    ∃ items effects, Separated terminators items tree.words ∧
      List.Forall₂ ItemPhrase items effects ∧
      (partsOf tree.parts).foldl addPart {} =
        effects.foldl (fun file effect => effect file) {} := by
  obtain ⟨parts, extent, rfl, hderived⟩ := derives_phrase.mp hreading
  obtain ⟨items, hitems, hseparated, hparts⟩ : ∃ items : List Tree,
      (∀ item ∈ items, derives itemStep item = true) ∧
      Separated terminators (items.map words) (wordsOf parts) ∧
      (partsOf parts).flatMap phrasesAmong =
        items.flatMap fun item => (toParts item).flatMap phrasesAmong := by
    have hform := hderived.2.2
    obtain ⟨groups, last, hgroups, hlast, hlastItem, hwords, hparts⟩ := items_of_sourceFile hform
    obtain ⟨items, hitems, hseparated, -, hcontribute⟩ := separated_of_terminated hgroups hlast
    refine ⟨items ++ last, ?_, by simpa [hwords] using hseparated, ?_⟩
    · intro item hitem
      rcases List.mem_append.mp hitem with hitem | hitem
      · exact hitems item hitem
      · exact hlastItem item hitem
    · rw [hparts]
      exact hcontribute phrasesAmong fun _ _ => rfl
  obtain ⟨effects, hphrases, heffects⟩ := foldl_items fun item hitem => by
    obtain ⟨rule, hrule, inner, extent, rfl, hinner⟩ :=
      (@derives_phrases item [.statement, .packageClause, .funcDecl, .methodDecl, .importDecl]
        none false).mp (hitems item hitem)
    exact item_means hrule hinner
  exact ⟨items.map words, effects, hseparated, hphrases, by
    rw [parts_node, foldl_addPart, hparts, heffects]⟩

end Tree

end GoAtlas.Source






