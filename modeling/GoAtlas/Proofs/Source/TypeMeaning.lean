import GoAtlas.Proofs.Source.Listed

/-!
# What derived types mean

A type is given its meaning part by part, by what the parts are to the phrase around them.  That
the meaning is the one of the words is shown by induction on the number of words: each rule is
treated for itself, given the types with fewer words.
-/

namespace GoAtlas.Source

open Grammar
open Forms (seq opt either token tokens phrase phrases role)

namespace Tree

variable {tree : Tree} {trees parts : List Tree} {rule : Rule} {extent : Extent} {size : Nat}

/-! ## Types -/

/-- A tree stands for one part, a type with a role. -/
def IsTypeIn (role : Option Role) (tree : Tree) : Prop :=
  ∃ part, tree.toParts = [part] ∧ part.counts = true ∧ part.label.role = role ∧
    part.isPhrase .params = false ∧ TypePhrase tree.words part.meaning.type

/-- The types with fewer words mean what they say. -/
def TypesBelow (size : Nat) : Prop :=
  ∀ role tree, derives (typeStep role) tree = true → tree.words.length < size →
    IsTypeIn role tree

theorem formsOf_pointerType : formsOf .pointerType = seq [token .star, type] :=
  (formsOf_eq _).trans rfl

theorem formsOf_parenType :
    formsOf .parenType = seq [token .openParen, type, token .closeParen] :=
  (formsOf_eq _).trans rfl

theorem formsOf_sliceType : formsOf .sliceType =
    seq [token .openBracket, token .closeBracket, role .element type] :=
  (formsOf_eq _).trans rfl

theorem formsOf_mapType : formsOf .mapType =
    seq [token .mapWord, token .openBracket, role .key type, token .closeBracket,
      role .value type] :=
  (formsOf_eq _).trans rfl

theorem formsOf_chanType : formsOf .chanType =
    either [seq [token .chanWord, opt (token .arrow), role .value type],
      seq [token .arrow, token .chanWord, role .value type]] :=
  (formsOf_eq _).trans rfl

theorem formsOf_qualifiedType : formsOf .qualifiedType =
    seq [role .package Forms.label, token .dot, role .name Forms.label] :=
  (formsOf_eq _).trans rfl

theorem pointerType_means (hbelow : TypesBelow size) (hsize : (wordsOf parts).length ≤ size)
    (hform : haveForm (formsOf .pointerType) parts) (broken : Bool) :
    TypePhrase (wordsOf parts) ((partsOf parts).toType .pointerType broken) := by
  simp only [formsOf_pointerType, haveForm_token_cons, haveForm_type_cons, haveForm_nil] at hform
  obtain ⟨_, _, _, _, rfl, target, _, rfl, htarget, rfl⟩ := hform
  obtain ⟨part, hpart, hcounts, -, -, hphrase⟩ := hbelow _ _ htarget (by simp at hsize; omega)
  simpa [Parts.toType, Parts.innerType, Parts.proper, Part.tokenCounts, hpart, hcounts]
    using TypePhrase.pointer hphrase

theorem parenType_means (hbelow : TypesBelow size) (hsize : (wordsOf parts).length ≤ size)
    (hform : haveForm (formsOf .parenType) parts) (broken : Bool) :
    TypePhrase (wordsOf parts) ((partsOf parts).toType .parenType broken) := by
  simp only [formsOf_parenType, haveForm_token_cons, haveForm_type_cons, haveForm_nil] at hform
  obtain ⟨_, _, _, _, rfl, inner, _, rfl, hinner, _, _, _, _, rfl, rfl⟩ := hform
  obtain ⟨part, hpart, hcounts, -, -, hphrase⟩ := hbelow _ _ hinner (by simp at hsize; omega)
  simpa [Parts.toType, Parts.innerType, Parts.proper, Part.tokenCounts, hpart, hcounts]
    using TypePhrase.parens hphrase

theorem sliceType_means (hbelow : TypesBelow size) (hsize : (wordsOf parts).length ≤ size)
    (hform : haveForm (formsOf .sliceType) parts) (broken : Bool) :
    TypePhrase (wordsOf parts) ((partsOf parts).toType .sliceType broken) := by
  simp only [formsOf_sliceType, haveForm_token_cons, haveForm_roleType_cons,
    haveForm_nil] at hform
  obtain ⟨_, _, _, _, rfl, _, _, _, _, rfl, elem, _, rfl, helem, rfl⟩ := hform
  obtain ⟨part, hpart, -, hrole, -, hphrase⟩ := hbelow _ _ helem (by simp at hsize; omega)
  simpa [Parts.toType, Parts.typeOf, hpart, hrole] using TypePhrase.slice hphrase

theorem mapType_means (hbelow : TypesBelow size) (hsize : (wordsOf parts).length ≤ size)
    (hform : haveForm (formsOf .mapType) parts) (broken : Bool) :
    TypePhrase (wordsOf parts) ((partsOf parts).toType .mapType broken) := by
  simp only [formsOf_mapType, haveForm_token_cons, haveForm_roleType_cons, haveForm_nil] at hform
  obtain ⟨_, _, _, _, rfl, _, _, _, _, rfl, key, _, rfl, hkey, _, _, _, _, rfl, value, _, rfl,
    hvalue, rfl⟩ := hform
  simp only [wordsOf_cons, words_leaf, List.length_append, List.length_cons] at hsize
  obtain ⟨keyPart, hkeyPart, -, hkeyRole, -, hkeyPhrase⟩ := hbelow _ _ hkey (by omega)
  obtain ⟨valuePart, hvaluePart, -, hvalueRole, -, hvaluePhrase⟩ := hbelow _ _ hvalue (by omega)
  simpa [Parts.toType, Parts.typeOf, hkeyPart, hvaluePart, hkeyRole, hvalueRole]
    using TypePhrase.map hkeyPhrase hvaluePhrase

theorem chanType_means (hbelow : TypesBelow size) (hsize : (wordsOf parts).length ≤ size)
    (hform : haveForm (formsOf .chanType) parts) (broken : Bool) :
    TypePhrase (wordsOf parts) ((partsOf parts).toType .chanType broken) := by
  simp only [formsOf_chanType, haveForm_either_cons, haveForm_either_nil, haveForm_token_cons,
    haveForm_opt_cons, haveForm_roleType_cons, haveForm_nil, or_false] at hform
  obtain
    ⟨_, _, _, _, rfl, ⟨_, _, _, _, rfl, elem, _, rfl, helem, rfl⟩ | ⟨elem, _, rfl, helem, rfl⟩⟩ |
    ⟨_, _, _, _, rfl, _, _, _, _, rfl, elem, _, rfl, helem, rfl⟩ := hform
  all_goals
    obtain ⟨part, hpart, hcounts, hrole, -, hphrase⟩ := hbelow _ _ helem (by simp at hsize; omega)
  · simpa [Parts.toType, Parts.typeOf, Parts.direction, hpart, hrole, hcounts,
      Part.tokenCounts] using TypePhrase.sendChan hphrase
  · simpa [Parts.toType, Parts.typeOf, Parts.direction, hpart, hrole, hcounts,
      Part.tokenCounts] using TypePhrase.chan hphrase
  · simpa [Parts.toType, Parts.typeOf, Parts.direction, hpart, hrole, hcounts,
      Part.tokenCounts] using TypePhrase.recvChan hphrase

theorem qualifiedType_means (hform : haveForm (formsOf .qualifiedType) parts) (broken : Bool) :
    TypePhrase (wordsOf parts) ((partsOf parts).toType .qualifiedType broken) := by
  simp only [formsOf_qualifiedType, haveForm_token_cons, haveForm_label_cons,
    haveForm_nil] at hform
  obtain ⟨_, package, _, _, rfl, _, _, _, _, rfl, _, name, _, _, rfl, rfl⟩ := hform
  simpa [Parts.toType, Parts.name, Parts.names, Parts.withRole]
    using TypePhrase.qualified (String.ofList package) (String.ofList name)

/-- The rules of types that are neither names nor in parentheses. -/
def compositeRules : List Rule :=
  [.genericType, .qualifiedType, .pointerType, .structType, .interfaceType, .arrayType,
    .sliceType, .mapType, .chanType, .funcType, .negatedType]

theorem compositeRules_visible :
    ∀ rule ∈ compositeRules, rule.isHidden = false ∧ rule ≠ .params := by decide

/-- The rules of types that are not in parentheses. -/
def typeRules : List Rule := .simpleType :: compositeRules

/-- The rules that an expression, a type or an element of an interface can start with. -/
def leadingRules : List Rule :=
  [.expr, .unary, .binary, .selector, .indexExpr, .sliceExpr, .call, .typeAssertion,
    .conversion, .instantiation, .compositeLiteral, .funcLiteral, .parenExpr, .typeElem,
    .countedArrayType, .parenType] ++ typeRules

theorem typeRules_start : startOutside typeRules [] [.openParen] = true := by decide +kernel

theorem leadingRules_start : startOutside leadingRules [] [.closeBracket] = true := by
  decide +kernel

theorem formsOf_arrayType : formsOf .arrayType =
    seq [token .openBracket, phrase .expr, token .closeBracket, role .element type] :=
  (formsOf_eq _).trans rfl

theorem formsOf_genericType : formsOf .genericType =
    either [seq [role .type Forms.label, phrase .typeArgs],
      seq [role .type (phrases [.qualifiedType, .negatedType]), phrase .typeArgs]] :=
  (formsOf_eq _).trans rfl

theorem formsOf_typeArgs : formsOf .typeArgs =
    seq [token .openBracket, phrase .typeElem, opt (phrase .typeArgTail), opt (token .comma),
      token .closeBracket] :=
  (formsOf_eq _).trans rfl

theorem formsOf_negatedType : formsOf .negatedType = seq [token .tilde, type] :=
  (formsOf_eq _).trans rfl

theorem arrayType_means (hform : haveForm (formsOf .arrayType) parts) (broken : Bool) :
    TypePhrase (wordsOf parts) ((partsOf parts).toType .arrayType broken) := by
  simp only [formsOf_arrayType, haveForm_token_cons, haveForm_phrase_cons] at hform
  obtain ⟨_, _, _, _, rfl, lengthParts, extent, _, rfl, hlength, _, _, _, _, rfl, -⟩ := hform
  obtain ⟨word, rest, hwords, hword⟩ := hlength.startsOutside leadingRules_start (by decide)
  simpa [hwords] using TypePhrase.array (by simpa using hword)

theorem negatedType_means (hform : haveForm (formsOf .negatedType) parts) (type : TypeExpr) :
    TypePhrase (wordsOf parts) type := by
  simp only [formsOf_negatedType, haveForm_token_cons] at hform
  obtain ⟨_, _, _, _, rfl, -⟩ := hform
  simpa using TypePhrase.negated

theorem genericType_means (hform : haveForm (formsOf .genericType) parts) (type : TypeExpr) :
    TypePhrase (wordsOf parts) type := by
  simp only [formsOf_genericType, haveForm_either_cons, haveForm_either_nil, haveForm_label_cons,
    haveForm_rolePhrases_cons, haveForm_phrase_cons, haveForm_nil, or_false] at hform
  obtain ⟨_, _, _, _, rfl, args, _, _, rfl, hargs, rfl⟩ |
    ⟨rule, hrule, head, _, _, rfl, hhead, args, _, _, rfl, hargs, rfl⟩ := hform
  all_goals
    have hargs := hargs.2.2
    simp only [formsOf_typeArgs, haveForm_token_cons, haveForm_phrase_cons] at hargs
    obtain ⟨_, _, _, _, rfl, argument, extent, _, rfl, hargument, -⟩ := hargs
  · obtain ⟨word, rest, hwords, hword⟩ := hargument.startsOutside leadingRules_start (by decide)
    simpa [hwords] using TypePhrase.applied (by simpa using hword)
  · have hhead := hhead.2.2
    rcases List.mem_cons.mp hrule with rfl | hrule
    · simp only [formsOf_qualifiedType, haveForm_token_cons, haveForm_label_cons,
        haveForm_nil] at hhead
      obtain ⟨_, _, _, _, rfl, _, _, _, _, rfl, _, _, _, _, rfl, rfl⟩ := hhead
      simpa using TypePhrase.appliedQualified
    · cases List.mem_singleton.mp hrule
      simp only [formsOf_negatedType, haveForm_token_cons] at hhead
      obtain ⟨_, _, _, _, rfl, -⟩ := hhead
      simpa using TypePhrase.negated

/-! ## Fields -/

theorem formsOf_structType :
    formsOf .structType = seq [token .structWord, phrase .fieldList] :=
  (formsOf_eq _).trans rfl

theorem formsOf_fieldList : formsOf .fieldList =
    seq [token .openBrace,
      opt (seq [[[{ symbols := [.rule .fieldDecl] }]], opt (phrase .fieldTail),
        opt (tokens terminators)]), token .closeBrace] :=
  (formsOf_eq _).trans rfl

theorem formsOf_fieldTail : formsOf .fieldTail =
    either [seq [phrase .fieldTail, phrase .fieldTail],
      seq [tokens terminators, [[{ symbols := [.rule .fieldDecl] }]]]] :=
  (formsOf_eq _).trans rfl

theorem formsOf_fieldDecl : formsOf .fieldDecl =
    seq [either
      [seq [role .name Forms.label, opt (phrase .fieldNameTail), role .type type],
        seq [opt (token .star),
          role .type (either [Forms.label, phrases [.qualifiedType, .genericType]])]],
      opt (role .tag (tokens stringTokens))] :=
  (formsOf_eq _).trans rfl

theorem formsOf_fieldNameTail : formsOf .fieldNameTail =
    either [seq [phrase .fieldNameTail, phrase .fieldNameTail],
      seq [token .comma,
        [[{ symbols := [.token .identifier], role := some .name, names := true }]]]] :=
  (formsOf_eq _).trans rfl

theorem tag_means (hform : haveForm (opt (role .tag (tokens stringTokens))) trees) :
    TagPhrase ((Parts.role? (partsOf trees) .tag).map (·.text)) (wordsOf trees) ∧
      ∀ part ∈ partsOf trees, part.label.role = some .tag ∧ part.isToken .star = false := by
  rcases haveForm_opt.mp hform with hform | rfl
  · simp only [role, tokens, Forms.oneOf, List.map_cons, List.map_nil, haveForm_step,
      derives_tokens] at hform
    obtain ⟨_, rfl, lexeme, rfl, hlexeme⟩ := hform
    constructor
    · simpa  using TagPhrase.some hlexeme
    · simp only [partsOf_cons, toParts_leaf, partsOf_nil, List.append_nil, List.mem_singleton]
      rintro _ rfl
      refine ⟨rfl, ?_⟩
      simp only [stringTokens, List.mem_cons, List.not_mem_nil, or_false] at hlexeme
      rcases hlexeme with htoken | htoken <;> simp [Part.isToken, htoken]
  · exact ⟨.none, by simp⟩

/-- The type of an embedded field. -/
theorem embedded_means
    (hform : haveForm (role .type (either [Forms.label, phrases [.qualifiedType, .genericType]]))
      trees) :
    ∃ part, partsOf trees = [part] ∧ part.label.role = some .type ∧ part.isToken .star = false ∧
      TypePhrase (wordsOf trees) part.meaning.type := by
  simp only [haveForm_role_either_cons] at hform
  obtain hform | hform | hform := hform
  · simp only [role, Forms.label, List.map_cons, List.map_nil, haveForm_step,
      derives_token] at hform
    obtain ⟨_, rfl, _, name, _, rfl⟩ := hform
    exact ⟨_, rfl, rfl, rfl, .name _⟩
  · rw [← haveForm_single] at hform
    simp only [haveForm_rolePhrases_cons, haveForm_nil] at hform
    obtain ⟨rule, hrule, parts, extent, _, rfl, hderived, rfl⟩ := hform
    simp only [List.mem_cons, List.not_mem_nil, or_false] at hrule
    rcases hrule with rfl | rfl
    · rw [wordsOf_cons, words_node, wordsOf_nil, List.append_nil]
      exact ⟨_, rfl, rfl, rfl, qualifiedType_means hderived.2.2 extent.broken⟩
    · rw [wordsOf_cons, words_node, wordsOf_nil, List.append_nil]
      exact ⟨_, rfl, rfl, rfl, genericType_means hderived.2.2 _⟩
  · simp [role, either, haveForm] at hform

/-- A field means what its words say. -/
theorem fieldDecl_means (hbelow : TypesBelow size) (hsize : (wordsOf parts).length < size)
    (hform : haveForm (formsOf .fieldDecl) parts) :
    ∃ field, (partsOf parts).toMembers .fieldDecl = [field] ∧
      FieldPhrase (wordsOf parts) field := by
  rw [formsOf_fieldDecl] at hform
  obtain ⟨first, last, rfl, hfirst, hlast⟩ := haveForm_cons.mp hform
  obtain ⟨htag, hlastRoles⟩ := tag_means (haveForm_single.mp hlast)
  have hlastNames : Parts.names (partsOf last) = [] :=
    names_eq_nil fun part hpart => by simp [(hlastRoles part hpart).1]
  refine ⟨_, rfl, ?_⟩
  simp only [haveForm_either_cons, haveForm_either_nil, or_false] at hfirst
  obtain hnamed | hembedded := hfirst
  · simp only [haveForm_label_cons] at hnamed
    obtain ⟨_, name, _, _, rfl, hrest⟩ := hnamed
    obtain ⟨more, _, rfl, hmore, htype⟩ := haveForm_cons.mp hrest
    simp only [haveForm_roleType_cons, haveForm_nil] at htype
    obtain ⟨type, _, rfl, htype, rfl⟩ := htype
    obtain ⟨htail, hroles⟩ := namesTail_of_more { role := some .name, names := true } rfl rfl
      formsOf_fieldNameTail hmore
    obtain ⟨part, hpart, -, hrole, -, hphrase⟩ := hbelow _ _ htype (by simp at hsize; omega)
    have hmoreType : ∀ part ∈ partsOf more, part.label.role ≠ some .type := fun part hpart => by
      rcases hroles part hpart with hnone | hname <;> simp_all
    have hmoreTag : ∀ part ∈ partsOf more, part.label.role ≠ some .tag := fun part hpart => by
      rcases hroles part hpart with hnone | hname <;> simp_all
    have hnames : NamesPhrase (String.ofList name :: Parts.names (partsOf more)) _ := .cons htail
    simpa [Parts.fieldType, Parts.typeOf, hpart, hrole, hlastNames,
      role?_append_of_ne hmoreType, role?_append_of_ne hmoreTag] using
      FieldPhrase.named hnames hphrase htag
  · obtain ⟨star, named, rfl, hstar, hnamed⟩ := haveForm_cons.mp hembedded
    obtain ⟨part, hpart, hrole, htoken, hphrase⟩ := embedded_means (haveForm_single.mp hnamed)
    rcases haveForm_opt.mp hstar with hstar | rfl
    · rw [← haveForm_single] at hstar
      simp only [haveForm_token_cons, haveForm_nil] at hstar
      obtain ⟨_, _, _, _, rfl, rfl⟩ := hstar
      simpa [hpart, hrole, Parts.fieldType, Parts.typeOf, Parts.hasToken, Part.isToken,
        hlastNames] using FieldPhrase.embedded (TypePhrase.pointer hphrase) htag
    · have hstar : (partsOf last).any (Part.isToken .star) = false := by
        simpa using fun part hpart => (hlastRoles part hpart).2
      simpa [hpart, hrole, Parts.fieldType, Parts.typeOf, Parts.hasToken, htoken, hstar,
        hlastNames] using FieldPhrase.embedded hphrase htag

/-! ## Parameters -/

/-- The step of a parameter. -/
def paramStep : Step := { symbols := [.rule .param, .rule .variadicParam] }

theorem formsOf_params : formsOf .params =
    seq [token .openParen,
      opt (either
        [seq [[[paramStep]], opt (phrase .paramTail), opt (token .comma)], token .comma]),
      token .closeParen] :=
  (formsOf_eq _).trans rfl

theorem formsOf_paramTail : formsOf .paramTail =
    either [seq [phrase .paramTail, phrase .paramTail],
      seq [token .comma, [[paramStep]]]] :=
  (formsOf_eq _).trans rfl

theorem formsOf_param : formsOf .param =
    seq [opt (seq [role .name (token .identifier), opt (phrase .nameTail)]),
      role .type type] :=
  (formsOf_eq _).trans rfl

theorem formsOf_nameTail : formsOf .nameTail =
    either [seq [phrase .nameTail, phrase .nameTail],
      seq [token .comma, [[{ symbols := [.token .identifier], role := some .name }]]]] :=
  (formsOf_eq _).trans rfl

theorem formsOf_variadicParam : formsOf .variadicParam =
    seq [opt (role .name (token .identifier)), token .ellipsis, role .type type] :=
  (formsOf_eq _).trans rfl

/-- A parameter means what its words say, and it has names if its tree says so. -/
structure IsParam (tree : Tree) (param : FieldDecl) : Prop where
  members : tree.membersOf = [param]
  phrase : ParamPhrase tree.words param
  isNamed : tree.isNamed = true ↔ param.names ≠ []
  among : paramsAmong tree.spread = [tree]

theorem param_means (hbelow : TypesBelow size)
    (hsize : (wordsOf parts).length < size) (hform : haveForm (formsOf .param) parts) :
    ∃ param, (node {} .param parts extent).IsParam param := by
  rw [formsOf_param] at hform
  obtain ⟨front, last, rfl, hfront, hlast⟩ := haveForm_cons.mp hform
  simp only [haveForm_roleType_cons, haveForm_nil] at hlast
  obtain ⟨type, _, rfl, htype, rfl⟩ := hlast
  obtain ⟨part, hpart, -, hrole, -, hphrase⟩ := hbelow _ _ htype (by simp at hsize; omega)
  have hlabel : type.label.role = some .type := by rw [(derives_iff.mp htype).2.1, typeStep]
  rcases haveForm_opt.mp hfront with hfront | rfl
  · simp only [token, haveForm_roleTokens_cons] at hfront
    obtain ⟨⟨_, _, name, _⟩, more, rfl, hname, hmore⟩ := hfront
    cases List.mem_singleton.mp hname
    obtain ⟨htail, hroles⟩ := namesTail_of_more { role := some .name } rfl rfl
      formsOf_nameTail (haveForm_single.mp hmore)
    have hmoreType : ∀ part ∈ partsOf more, part.label.role ≠ some .type := fun part hpart => by
      rcases hroles part hpart with hnone | hname <;> simp_all
    have hnames : NamesPhrase (String.ofList name :: Parts.names (partsOf more)) _ := .cons htail
    refine ⟨_, rfl, ?_, ?_, rfl⟩
    · simpa [Parts.typeOf, hpart, hrole, role?_append_of_ne hmoreType] using
        ParamPhrase.plain hnames hphrase
    · simp [isNamed]
  · refine ⟨_, rfl, ?_, ?_, rfl⟩
    · simpa [Parts.typeOf, hpart, hrole] using ParamPhrase.plain .none hphrase
    · simp [isNamed, hlabel, hpart, hrole]

theorem variadicParam_means (hbelow : TypesBelow size)
    (hsize : (wordsOf parts).length < size) (hform : haveForm (formsOf .variadicParam) parts) :
    ∃ param, (node {} .variadicParam parts extent).IsParam param := by
  rw [formsOf_variadicParam] at hform
  obtain ⟨front, last, rfl, hfront, hlast⟩ := haveForm_cons.mp hform
  simp only [haveForm_token_cons, haveForm_roleType_cons, haveForm_nil] at hlast
  obtain ⟨_, _, _, _, rfl, type, _, rfl, htype, rfl⟩ := hlast
  obtain ⟨part, hpart, -, hrole, -, hphrase⟩ := hbelow _ _ htype (by simp at hsize; omega)
  have hlabel : type.label.role = some .type := by rw [(derives_iff.mp htype).2.1, typeStep]
  rcases haveForm_opt.mp hfront with hfront | rfl
  · rw [← haveForm_single] at hfront
    simp only [token, haveForm_roleTokens_cons, haveForm_nil] at hfront
    obtain ⟨⟨_, _, name, _⟩, _, rfl, hname, rfl⟩ := hfront
    cases List.mem_singleton.mp hname
    have hnames : NamesPhrase [String.ofList name] _ := .cons .nil
    refine ⟨_, rfl, ?_, ?_, rfl⟩
    · simpa [Parts.typeOf, hpart, hrole] using ParamPhrase.variadic hnames hphrase
    · simp [isNamed]
  · refine ⟨_, rfl, ?_, ?_, rfl⟩
    · simpa [Parts.typeOf, hpart, hrole] using ParamPhrase.variadic .none hphrase
    · simp [isNamed, hlabel, hpart, hrole]

theorem paramTail_isRepetition : Rule.isRepetition .paramTail = true := by decide

/-- What stands between the parentheses of a list of parameters. -/
theorem separated_of_params
    (hbody : haveForm (opt (either
      [seq [[[paramStep]], opt (phrase .paramTail), opt (token .comma)], token .comma])) trees) :
    ∃ items, (∀ item ∈ items, derives paramStep item = true) ∧
      Separated [.comma] (items.map words) (wordsOf trees) ∧
      Contribute [.comma] items (spreadAll trees) (partsOf trees) := by
  have hlisted : haveForm (opt (seq [[[paramStep]], opt (phrase .paramTail),
      opt (tokens [.comma])])) trees ∨ haveForm (tokens [.comma]) trees := by
    simp only [haveForm_opt, haveForm_either_cons, haveForm_either_nil, or_false, token] at hbody ⊢
    tauto
  rcases hlisted with hlisted | hcomma
  · exact separated_of_opt paramTail_isRepetition formsOf_paramTail hlisted
  · obtain ⟨htail, hcontribute⟩ := haveForm_separator (Or.inl hcomma)
    exact ⟨[], by simp, .none htail, hcontribute⟩

theorem paramStep_means (hbelow : TypesBelow size) (hsize : tree.words.length < size)
    (hitem : derives paramStep tree = true) : ∃ param, tree.IsParam param := by
  obtain ⟨rule, hrule, parts, extent, rfl, hderived⟩ :=
    (@derives_phrases tree [.param, .variadicParam] none false).mp hitem
  simp only [List.mem_cons, List.not_mem_nil, or_false] at hrule
  rcases hrule with rfl | rfl
  · exact param_means hbelow hsize hderived.2.2
  · exact variadicParam_means hbelow hsize hderived.2.2

/-- The parameters of a list have names, or none has. -/
theorem uniform_of_isUniform {items : List Tree}
    (hitems : ∀ item ∈ items, ∃ param, item.IsParam param)
    (huniform : items.all (·.isNamed) || items.all (!·.isNamed)) :
    Uniform (items.flatMap membersOf) := by
  simp only [Bool.or_eq_true, List.all_eq_true, Bool.not_eq_true'] at huniform
  refine huniform.imp ?_ ?_
  all_goals
    intro hall param hparam
    obtain ⟨item, hitem, hparam⟩ := List.mem_flatMap.mp hparam
    obtain ⟨other, hother⟩ := hitems item hitem
    rw [hother.members, List.mem_singleton] at hparam
    subst hparam
    have hnamed := hall item hitem
    have hiff := hother.isNamed
    simp_all

/-- A list of parameters means what its words say. -/
theorem params_means {label : Label} (hbelow : TypesBelow size)
    (hsize : (wordsOf parts).length ≤ size)
    (hderived : (node label .params parts extent).IsDerived) :
    ParamsPhrase (wordsOf parts) (Parts.members (partsOf parts)) := by
  obtain ⟨-, huniform, hform⟩ := hderived
  have huniform := huniform rfl
  rw [formsOf_params, haveForm_between] at hform
  obtain ⟨_, _, _, body, _, _, _, rfl, hbody⟩ := hform
  obtain ⟨items, hitems, hseparated, hcontribute⟩ := separated_of_params hbody
  have hparams : ∀ item ∈ items, ∃ param, item.IsParam param := fun item hitem => by
    have hle := hseparated.length_le item.words (List.mem_map_of_mem hitem)
    exact paramStep_means hbelow (by simp at hsize; omega) (hitems item hitem)
  have hmembers : List.Forall₂ ParamPhrase (items.map words) (items.flatMap membersOf) :=
    forall₂_items fun item hitem =>
      (hparams item hitem).imp fun param hparam => ⟨hparam.members, hparam.phrase⟩
  have hamong : (items.flatMap fun item => paramsAmong item.spread) = items := by
    have hsame : ∀ item ∈ items, paramsAmong item.spread = [item] := fun item hitem => by
      obtain ⟨param, hparam⟩ := hparams item hitem
      exact hparam.among
    rw [List.flatMap_congr hsame, List.flatMap_singleton']
  have huniform : Uniform (items.flatMap membersOf) := by
    refine uniform_of_isUniform hparams ?_
    simpa [isUniform, hcontribute.params, hamong] using huniform
  simpa [hcontribute.members] using ParamsPhrase.list hseparated hmembers huniform

/-! ## Functions -/

theorem formsOf_funcType : formsOf .funcType = seq [token .funcWord, signature] :=
  (formsOf_eq _).trans rfl

theorem params_isHidden : Rule.isHidden .params = false := by decide

/-- The parameters and results of a function mean what their words say. -/
theorem signature_means (hbelow : TypesBelow size) (hsize : (wordsOf parts).length < size)
    (hform : haveForm signature parts) :
    SignaturePhrase (wordsOf parts) (Parts.signature (partsOf parts)).1
      (Parts.signature (partsOf parts)).2 := by
  simp only [signature, phrase, haveForm_rolePhrases_cons, List.mem_singleton] at hform
  obtain ⟨_, rfl, params, extent, rest, rfl, hderived, hrest⟩ := hform
  have hparams := params_means hbelow (by simp at hsize; omega) hderived
  rcases haveForm_opt.mp (haveForm_single.mp hrest) with hresult | rfl
  · rw [← haveForm_single] at hresult
    simp only [haveForm_rolePhrases_cons, haveForm_nil] at hresult
    obtain ⟨rule, hrule, results, extent, _, rfl, hderived, rfl⟩ := hresult
    simp only [List.mem_cons, List.not_mem_nil, or_false] at hrule
    rcases hrule with rfl | rfl
    · have hresults := params_means hbelow (by simp at hsize; omega) hderived
      simpa [toParts_node, params_isHidden, Parts.signature, Part.isPhrase, phraseMeaning,
        Parts.toMembers] using SignaturePhrase.results hparams hresults
    · have htype : derives (typeStep (some .result))
          (node { role := some .result } .simpleType results extent) = true :=
        derives_iff.mpr ⟨by simp [typeStep, symbol], rfl, hderived⟩
      obtain ⟨part, hpart, -, hrole, hphrase, htypePhrase⟩ :=
        hbelow _ _ htype (by simp at hsize ⊢; omega)
      obtain ⟨word, more, hwords, hword⟩ :=
        hderived.startsOutside typeRules_start (by decide)
      rw [words_node, hwords] at htypePhrase
      simpa [toParts_node, params_isHidden, Parts.signature, hpart, hrole, hphrase, hwords,
        phraseMeaning, Parts.toMembers] using
        SignaturePhrase.result hparams htypePhrase (by simpa using hword)
  · simpa [toParts_node, params_isHidden, Parts.signature, phraseMeaning, Parts.toMembers] using
      SignaturePhrase.plain hparams

theorem funcType_means (hbelow : TypesBelow size) (hsize : (wordsOf parts).length ≤ size)
    (hform : haveForm (formsOf .funcType) parts) (broken : Bool) :
    TypePhrase (wordsOf parts) ((partsOf parts).toType .funcType broken) := by
  simp only [formsOf_funcType, haveForm_token_cons, haveForm_single] at hform
  obtain ⟨_, _, _, parts, rfl, hsignature⟩ := hform
  have hphrase := signature_means hbelow (by simp at hsize; omega) hsignature
  simpa [Parts.toType, Parts.funcType, signature_cons] using TypePhrase.func hphrase

/-! ## Elements of interfaces -/

/-- The step of an element of an interface. -/
def elementStep : Step := { symbols := [.rule .methodElem, .rule .typeElem] }

theorem formsOf_interfaceType : formsOf .interfaceType =
    seq [token .interfaceWord, token .openBrace,
      opt (seq [[[elementStep]], opt (phrase .interfaceTail), opt (tokens terminators)]),
      token .closeBrace] :=
  (formsOf_eq _).trans rfl

theorem formsOf_interfaceTail : formsOf .interfaceTail =
    either [seq [phrase .interfaceTail, phrase .interfaceTail],
      seq [tokens terminators, [[elementStep]]]] :=
  (formsOf_eq _).trans rfl

theorem formsOf_methodElem : formsOf .methodElem =
    seq [role .name Forms.label, signature] :=
  (formsOf_eq _).trans rfl

theorem formsOf_typeElem : formsOf .typeElem = seq [type, opt (phrase .unionTail)] :=
  (formsOf_eq _).trans rfl

theorem formsOf_unionTail : formsOf .unionTail =
    either [seq [phrase .unionTail, phrase .unionTail], seq [token .bar, type]] :=
  (formsOf_eq _).trans rfl

theorem elementStep_means (hbelow : TypesBelow size) (hsize : tree.words.length < size)
    (hitem : derives elementStep tree = true) : tree.IsMember ElementPhrase := by
  obtain ⟨rule, hrule, parts, extent, rfl, hderived⟩ :=
    (@derives_phrases tree [.methodElem, .typeElem] none false).mp hitem
  simp only [List.mem_cons, List.not_mem_nil, or_false] at hrule
  have hform := hderived.2.2
  rcases hrule with rfl | rfl
  · simp only [formsOf_methodElem, haveForm_label_cons, haveForm_single] at hform
    obtain ⟨_, name, _, rest, rfl, hsignature⟩ := hform
    have hphrase := signature_means hbelow (by simp at hsize ⊢; omega) hsignature
    have hmethod : ElementPhrase ((.identifier, String.ofList name) :: wordsOf rest) _ :=
      .method hphrase
    refine ⟨_, rfl, ?_⟩
    simpa [Parts.funcType, signature_cons, Parts.name] using hmethod
  · rw [formsOf_typeElem] at hform
    simp only [haveForm_type_cons] at hform
    obtain ⟨type, rest, rfl, htype, hrest⟩ := hform
    obtain ⟨part, hpart, hcounts, -, -, hphrase⟩ :=
      hbelow _ _ htype (by simp at hsize ⊢; omega)
    refine ⟨_, rfl, ?_⟩
    rcases haveForm_opt.mp (haveForm_single.mp hrest) with hmore | rfl
    · obtain ⟨parts, extent, rfl, hunion⟩ := haveForm_phrase.mp hmore
      obtain ⟨groups, hne, hgroups, hwords, -, -⟩ := hunion.repeated (by decide) formsOf_unionTail
      obtain ⟨group, groups, rfl⟩ := List.exists_cons_of_ne_nil hne
      have hgroup := hgroups group (List.mem_cons_self ..)
      simp only [haveForm_token_cons] at hgroup
      obtain ⟨_, _, _, _, rfl, -⟩ := hgroup
      simpa [hwords] using ElementPhrase.union hphrase
    · simpa [Parts.elementType, Parts.proper, hpart, hcounts] using ElementPhrase.embedded hphrase

theorem structType_means (hbelow : TypesBelow size) (hsize : (wordsOf parts).length ≤ size)
    (hform : haveForm (formsOf .structType) parts) :
    TypePhrase (wordsOf parts) ((partsOf parts).toType .structType false) := by
  simp only [formsOf_structType, haveForm_token_cons, haveForm_phrase_cons,
    haveForm_nil] at hform
  obtain ⟨_, _, _, _, rfl, list, extent, _, rfl, hlist, rfl⟩ := hform
  have hlist := hlist.2.2
  rw [formsOf_fieldList, haveForm_between] at hlist
  obtain ⟨_, _, _, body, _, _, _, rfl, hbody⟩ := hlist
  obtain ⟨items, hitems, hseparated, hcontribute⟩ :=
    separated_of_opt (by decide) formsOf_fieldTail hbody
  have hfields : List.Forall₂ FieldPhrase (items.map words) (items.flatMap membersOf) := by
    refine forall₂_items fun item hitem => ?_
    have hle := hseparated.length_le item.words (List.mem_map_of_mem hitem)
    obtain ⟨parts, extent, rfl, hderived⟩ := derives_phrase.mp (hitems item hitem)
    obtain ⟨field, hfield, hphrase⟩ :=
      fieldDecl_means hbelow (by simp at hsize hle; omega) hderived.2.2
    exact ⟨field, by simpa (disch := decide) [membersOf_node] using hfield, hphrase⟩
  simpa (disch := decide) [Parts.toType, toParts_node, phraseMeaning, Parts.toMembers,
    hcontribute.members] using TypePhrase.struct hseparated hfields

theorem interfaceType_means (hbelow : TypesBelow size) (hsize : (wordsOf parts).length ≤ size)
    (hform : haveForm (formsOf .interfaceType) parts) (broken : Bool) :
    TypePhrase (wordsOf parts) ((partsOf parts).toType .interfaceType broken) := by
  rw [formsOf_interfaceType, haveForm_token_cons] at hform
  obtain ⟨_, _, _, _, rfl, hrest⟩ := hform
  obtain ⟨_, _, _, body, _, _, _, rfl, hbody⟩ := haveForm_between.mp hrest
  obtain ⟨items, hitems, hseparated, hcontribute⟩ :=
    separated_of_opt (by decide) formsOf_interfaceTail hbody
  have helements : List.Forall₂ ElementPhrase (items.map words) (items.flatMap membersOf) := by
    refine forall₂_items fun item hitem => ?_
    have hle := hseparated.length_le item.words (List.mem_map_of_mem hitem)
    exact elementStep_means hbelow (by simp at hsize hle; omega) (hitems item hitem)
  simpa [Parts.toType, hcontribute.members] using TypePhrase.interface hseparated helements

/-! ## All types -/

theorem formsOf_simpleType : formsOf .simpleType =
    either [Forms.label, phrases compositeRules] :=
  (formsOf_eq _).trans rfl

/-- A phrase of a rule of types means what its words say. -/
theorem typeRule_means (hbelow : TypesBelow size) (hsize : (wordsOf parts).length ≤ size)
    (hrule : rule ∈ compositeRules)
    (hderived : (node {} rule parts extent).IsDerived) :
    TypePhrase (wordsOf parts) ((partsOf parts).toType rule extent.broken) := by
  obtain ⟨hbroken, -, hform⟩ := hderived
  simp only [compositeRules, List.mem_cons, List.not_mem_nil, or_false] at hrule
  rcases hrule with rfl | rfl | rfl | rfl | rfl | rfl | rfl | rfl | rfl | rfl | rfl
  · exact genericType_means hform _
  · exact qualifiedType_means hform _
  · exact pointerType_means hbelow hsize hform _
  · rw [hbroken]
    exact structType_means hbelow hsize hform
  · exact interfaceType_means hbelow hsize hform _
  · exact arrayType_means hform _
  · exact sliceType_means hbelow hsize hform _
  · exact mapType_means hbelow hsize hform _
  · exact chanType_means hbelow hsize hform _
  · exact funcType_means hbelow hsize hform _
  · exact negatedType_means hform _

theorem toParts_simpleType {label : Label} : toParts (node label .simpleType parts extent) =
    (partsOf parts).map (·.inRole label.role) := by
  have hhidden : Rule.isHidden .simpleType = true := by decide
  simp [toParts, hhidden]

theorem role_inRole {part : Part} (hpart : part.label.role = none) (role : Option Role) :
    (part.inRole role).label.role = role := by
  cases role with
  | none => exact hpart
  | some role => rfl

/-- A part in another role is the same part otherwise. -/
theorem inRole_same (part : Part) (role : Option Role) :
    (part.inRole role).symbol = part.symbol ∧ (part.inRole role).meaning = part.meaning ∧
      (part.inRole role).text = part.text ∧
      (part.inRole role).label.names = part.label.names := by
  cases role with
  | none => exact ⟨rfl, rfl, rfl, rfl⟩
  | some role => exact ⟨rfl, rfl, rfl, rfl⟩

theorem simpleType_means {role : Option Role} (hbelow : TypesBelow size)
    (hsize : (wordsOf parts).length ≤ size) (hform : haveForm (formsOf .simpleType) parts) :
    IsTypeIn role (node { role } .simpleType parts extent) := by
  obtain ⟨part, hpart, hrole, hcounts, hparams, hphrase⟩ :
      ∃ part, partsOf parts = [part] ∧ part.label.role = none ∧ part.counts = true ∧
        part.isPhrase .params = false ∧ TypePhrase (wordsOf parts) part.meaning.type := by
    simp only [formsOf_simpleType, haveForm_either_cons, haveForm_either_nil, or_false] at hform
    rcases hform with hname | hphrases
    · simp only [Forms.label, haveForm_step, derives_token] at hname
      obtain ⟨_, rfl, _, name, _, rfl⟩ := hname
      exact ⟨_, rfl, rfl, rfl, rfl, .name _⟩
    · simp only [phrases, Forms.oneOf, haveForm_step, derives_phrases] at hphrases
      obtain ⟨_, rfl, rule, hrule, inner, extent, rfl, hderived⟩ := hphrases
      rw [wordsOf_cons, words_node, wordsOf_nil, List.append_nil] at hsize ⊢
      have hmeans := typeRule_means hbelow hsize hrule hderived
      obtain ⟨hvisible, hne⟩ := compositeRules_visible rule hrule
      exact ⟨_, partsOf_node hvisible, rfl, rfl, by simpa [Part.isPhrase] using hne, hmeans⟩
  obtain ⟨hsymbol, hmeaning, -, -⟩ := inRole_same part role
  refine ⟨part.inRole role, by simp [toParts_simpleType, hpart], ?_, role_inRole hrole role, ?_, ?_⟩
  · simpa [Part.counts, hsymbol] using hcounts
  · simpa [Part.isPhrase, hsymbol] using hparams
  · simpa [hmeaning] using hphrase

theorem typesBelow (size : Nat) : TypesBelow size := by
  induction size with
  | zero => exact fun _ _ _ hsize => absurd hsize (Nat.not_lt_zero _)
  | succ size hbelow =>
      intro role tree htree hsize
      obtain ⟨rule, hrule, parts, extent, rfl, hderived⟩ :=
        (@derives_phrases tree [.simpleType, .parenType] role false).mp htree
      have hle : (wordsOf parts).length ≤ size := by simpa [Nat.lt_succ_iff] using hsize
      simp only [List.mem_cons, List.not_mem_nil, or_false] at hrule
      rcases hrule with rfl | rfl
      · exact simpleType_means hbelow hle hderived.2.2
      · exact ⟨_, toParts_node (by decide), rfl, rfl, rfl,
          parenType_means hbelow hle hderived.2.2 extent.broken⟩

/-- A type means what its words say. -/
theorem type_means {role : Option Role} (htree : derives (typeStep role) tree = true) :
    IsTypeIn role tree :=
  typesBelow _ role tree htree (Nat.lt_succ_self _)

end Tree

end GoAtlas.Source


