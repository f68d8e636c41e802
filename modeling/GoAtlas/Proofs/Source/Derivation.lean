import GoAtlas.Source.File

/-!
# Derivations in the grammar

A tree is a derivation if every phrase in it has one of the forms that the grammar gives its
rule.  `Tree.derives` decides this, and `Tree.words` are the tokens that the tree derives.

The grammar alone does not tell `a, b T` as two parameters of one type from a parameter `b` after
a type `a`.  Go has a rule for it: the parameters of a list all have names, or none has.
`Tree.derives` includes it (`Tree.isUniform`).

What the forms of a rule are for is said in terms of the combinators that the grammar is written
with (`Tree.haveForm`), so a fact about a rule is read off its entry in the grammar.
-/

namespace GoAtlas.Source

/-- A token with its text. -/
abbrev Word := Token × String

/-- The forms of the phrases of a rule. -/
def Grammar.formsOf (rule : Rule) : Forms :=
  (productions.filter fun production => production.rule == rule).map (·.steps)

/-! ## Chapters of the grammar

To read off the forms of a rule it is enough to look at the part of the grammar that the rule is
in (`Grammar.formsOf_eq`). -/

namespace Grammar

/-- Productions of the rules from one to another. -/
structure Chapter where
  first : Rule
  last : Rule
  productions : List Production

namespace Chapter

/-- Whether a rule is one of those of the chapter. -/
def covers (chapter : Chapter) (rule : Rule) : Bool :=
  chapter.first.index ≤ rule.index && rule.index ≤ chapter.last.index

/-- The forms that the chapter gives a rule. -/
def formsOf (chapter : Chapter) (rule : Rule) : Forms :=
  (chapter.productions.filter fun production => production.rule == rule).map (·.steps)

theorem formsOf_of_not_covers {chapter : Chapter} {rule : Rule}
    (hcovers : ∀ production ∈ chapter.productions, chapter.covers production.rule = true)
    (hrule : ¬ chapter.covers rule = true) : chapter.formsOf rule = [] := by
  have hother : ∀ production ∈ chapter.productions, ¬ (production.rule == rule) = true := by
    intro production hproduction hsame
    rw [beq_iff_eq] at hsame
    exact hrule (hsame ▸ hcovers production hproduction)
  rw [formsOf, List.filter_eq_nil_iff.mpr hother, List.map_nil]

end Chapter

/-- The chapters of the grammar, in the order of their rules. -/
def chapters : List Chapter :=
  [⟨.sourceFile, .importGroup, files⟩, ⟨.declaration, .varGroup, values⟩,
    ⟨.funcDecl, .variadicParam, functions⟩, ⟨.typeAlias, .typeSpec, typeDecls⟩,
    ⟨.exprList, .negatedType, types⟩, ⟨.fieldList, .funcType, members⟩,
    ⟨.block, .shortVarDecl, simpleStatements⟩, ⟨.labeledStatement, .deferStatement, jumps⟩,
    ⟨.ifStatement, .commCase, compoundStatements⟩, ⟨.expr, .instantiation, operands⟩,
    ⟨.compositeLiteral, .qualifiedType, operators⟩, ⟨.fileItems, .elementTail, repetitions⟩,
    ⟨.text, .text, produce .text (Forms.phrase .sourceFile)⟩]

theorem covers_of_mem_chapters :
    ∀ chapter ∈ chapters, ∀ production ∈ chapter.productions,
      chapter.covers production.rule = true := by
  -- The one time that the grammar is gone through as a whole.
  decide +kernel

theorem productions_eq_chapters : productions = chapters.flatMap (·.productions) := by
  simp [productions, chapters]

theorem formsOf_flatMap (rule : Rule) {part : List Chapter}
    (hcovers : ∀ chapter ∈ part, ∀ production ∈ chapter.productions,
      chapter.covers production.rule = true) :
    part.flatMap (·.formsOf rule) =
      (part.filter (·.covers rule)).flatMap (·.formsOf rule) := by
  induction part with
  | nil => rfl
  | cons chapter rest ih =>
      rw [List.forall_mem_cons] at hcovers
      rw [List.flatMap_cons, ih hcovers.2, List.filter_cons]
      split
      case isTrue => rfl
      case isFalse hrule => rw [Chapter.formsOf_of_not_covers hcovers.1 hrule, List.nil_append]

/-- The forms of a rule are those that its chapter gives it. -/
theorem formsOf_eq (rule : Rule) :
    formsOf rule = (chapters.filter (·.covers rule)).flatMap (·.formsOf rule) := by
  rw [← formsOf_flatMap rule covers_of_mem_chapters, formsOf, productions_eq_chapters,
    List.filter_flatMap, List.map_flatMap]
  rfl

end Grammar

/-- Whether a label is the one of a step. -/
def Label.isOf (label : Label) (step : Step) : Bool :=
  label.role == step.role && label.names == step.names && !label.extra

theorem Label.isOf_iff {label : Label} {step : Step} :
    label.isOf step = true ↔ label = { role := step.role, names := step.names } := by
  obtain ⟨role, names, extra⟩ := label
  simp [isOf, and_assoc]

namespace Tree

mutual

/-- The tokens of a tree. -/
def words : Tree → List Word
  | leaf _ lexeme => [(lexeme.token, String.ofList lexeme.text)]
  | node _ _ parts _ => wordsOf parts

/-- The tokens of some trees. -/
def wordsOf : List Tree → List Word
  | [] => []
  | tree :: trees => words tree ++ wordsOf trees

end

mutual

/-- A tree, or its parts if it only repeats. -/
def spread : Tree → List Tree
  | leaf label lexeme => [leaf label lexeme]
  | node label rule parts extent =>
      if rule.isRepetition then spreadAll parts else [node label rule parts extent]

/-- Some trees, with the parts of those that only repeat in their places. -/
def spreadAll : List Tree → List Tree
  | [] => []
  | tree :: trees => spread tree ++ spreadAll trees

end

/-- Whether a parameter has a name. -/
def isNamed (param : Tree) : Bool := param.parts.any fun part => part.label.role == some .name

/-- The parameters among some trees. -/
def paramsAmong (trees : List Tree) : List Tree :=
  trees.filter fun tree => tree.symbol == .rule .param || tree.symbol == .rule .variadicParam

/-- Whether all parameters of a list have names, or none has. -/
def isUniform (parts : List Tree) : Bool :=
  let params := paramsAmong (spreadAll parts)
  params.all (·.isNamed) || params.all (!·.isNamed)

mutual

/-- Whether a tree fills a step and is a derivation in the grammar. -/
def derives : Step → Tree → Bool
  | step, leaf label lexeme =>
      step.symbols.contains (.token lexeme.token) && label.isOf step
  | step, node label rule parts extent =>
      step.symbols.contains (.rule rule) && label.isOf step && !extent.broken &&
        (rule != .params || isUniform parts) &&
        (Grammar.formsOf rule).any fun steps => derivesAll steps parts

/-- Whether some trees fill some steps and are derivations in the grammar. -/
def derivesAll : List Step → List Tree → Bool
  | [], [] => true
  | step :: steps, tree :: trees => derives step tree && derivesAll steps trees
  | _, _ => false

end

/-- Whether a tree is a reading of a whole file in the grammar. -/
def isReading (tree : Tree) : Bool := derives { symbols := [.rule .sourceFile] } tree

variable {step : Step} {steps : List Step} {tree : Tree} {trees first last parts : List Tree}
  {label : Label} {lexeme : Lexeme} {rule : Rule} {extent : Extent} {form : Forms}
  {forms : List Forms}

/-! ## Lists of trees -/

@[simp] theorem wordsOf_nil : wordsOf [] = [] := rfl

@[simp] theorem wordsOf_cons : wordsOf (tree :: trees) = tree.words ++ wordsOf trees := rfl

@[simp] theorem wordsOf_append : wordsOf (first ++ last) = wordsOf first ++ wordsOf last := by
  induction first with
  | nil => rfl
  | cons tree first ih => simp [ih]

@[simp] theorem words_leaf :
    words (leaf label lexeme) = [(lexeme.token, String.ofList lexeme.text)] := rfl

@[simp] theorem words_node : words (node label rule parts extent) = wordsOf parts := rfl

@[simp] theorem label_leaf : Tree.label (leaf label lexeme) = label := rfl

@[simp] theorem label_node : Tree.label (node label rule parts extent) = label := rfl

@[simp] theorem parts_node : Tree.parts (node label rule parts extent) = parts := rfl

@[simp] theorem spreadAll_nil : spreadAll [] = [] := rfl

@[simp] theorem spreadAll_cons : spreadAll (tree :: trees) = spread tree ++ spreadAll trees := rfl

@[simp] theorem spreadAll_append :
    spreadAll (first ++ last) = spreadAll first ++ spreadAll last := by
  induction first with
  | nil => rfl
  | cons tree first ih => simp [ih]

@[simp] theorem partsOf_nil : partsOf [] = [] := rfl

@[simp] theorem partsOf_cons : partsOf (tree :: trees) = toParts tree ++ partsOf trees := rfl

@[simp] theorem partsOf_append : partsOf (first ++ last) = partsOf first ++ partsOf last := by
  induction first with
  | nil => rfl
  | cons tree first ih => simp [ih]

@[simp] theorem spread_leaf : spread (leaf label lexeme) = [leaf label lexeme] := rfl

@[simp] theorem paramsAmong_nil : paramsAmong [] = [] := rfl

@[simp] theorem paramsAmong_append :
    paramsAmong (first ++ last) = paramsAmong first ++ paramsAmong last := by
  simp [paramsAmong]

@[simp] theorem paramsAmong_leaf_cons :
    paramsAmong (leaf label lexeme :: trees) = paramsAmong trees := by
  simp [paramsAmong, symbol]

/-! ## Derived trees -/

/-- Whether some trees have one of some forms. -/
def haveForm (form : Forms) (trees : List Tree) : Prop :=
  ∃ steps ∈ form, derivesAll steps trees = true

/-- A phrase that has one of the forms of its rule, and so have the phrases in it. -/
def IsDerived : Tree → Prop
  | leaf _ _ => True
  | node _ rule parts extent =>
      extent.broken = false ∧ (rule = .params → isUniform parts = true) ∧
        haveForm (Grammar.formsOf rule) parts

theorem derives_iff : derives step tree = true ↔
    tree.symbol ∈ step.symbols ∧ tree.label = { role := step.role, names := step.names } ∧
      tree.IsDerived := by
  cases tree with
  | leaf label lexeme =>
      simp [derives, IsDerived, symbol, Tree.label, ← Label.isOf_iff]
  | node label rule parts extent =>
      simp only [derives, Bool.and_eq_true, List.contains_iff_mem, Bool.not_eq_true',
        Bool.or_eq_true, bne_iff_ne, List.any_eq_true, IsDerived, symbol, Tree.label,
        Label.isOf_iff, haveForm, ne_eq, and_assoc, Decidable.imp_iff_not_or]

theorem derivesAll_nil : derivesAll [] trees = true ↔ trees = [] := by
  cases trees <;> simp [derivesAll]

theorem derivesAll_cons : derivesAll (step :: steps) trees = true ↔
    ∃ tree rest, trees = tree :: rest ∧ derives step tree = true ∧
      derivesAll steps rest = true := by
  cases trees with
  | nil => simp [derivesAll]
  | cons tree trees =>
      simp only [derivesAll, Bool.and_eq_true, List.cons.injEq]
      constructor
      · exact fun h => ⟨tree, trees, ⟨rfl, rfl⟩, h⟩
      · rintro ⟨_, _, ⟨rfl, rfl⟩, h⟩
        exact h

theorem derivesAll_append {front back : List Step} : derivesAll (front ++ back) trees = true ↔
    ∃ first last, trees = first ++ last ∧ derivesAll front first = true ∧
      derivesAll back last = true := by
  induction front generalizing trees with
  | nil =>
      simp only [List.nil_append, derivesAll_nil]
      constructor
      · exact fun h => ⟨[], trees, rfl, rfl, h⟩
      · rintro ⟨_, _, rfl, rfl, h⟩
        exact h
  | cons step front ih =>
      simp only [List.cons_append, derivesAll_cons]
      constructor
      · rintro ⟨tree, rest, rfl, htree, hrest⟩
        obtain ⟨first, last, rfl, hfirst, hlast⟩ := ih.mp hrest
        exact ⟨tree :: first, last, rfl, ⟨tree, first, rfl, htree, hfirst⟩, hlast⟩
      · rintro ⟨_, last, rfl, ⟨tree, rest, rfl, htree, hrest⟩, hlast⟩
        exact ⟨tree, rest ++ last, rfl, htree, ih.mpr ⟨rest, last, rfl, hrest, hlast⟩⟩

/-! ## Forms -/

@[simp] theorem haveForm_nil : haveForm (Forms.seq []) trees ↔ trees = [] := by
  simp [haveForm, Forms.seq, derivesAll_nil]

theorem haveForm_cons : haveForm (Forms.seq (form :: forms)) trees ↔
    ∃ first last, trees = first ++ last ∧ haveForm form first ∧
      haveForm (Forms.seq forms) last := by
  simp only [haveForm, Forms.seq, List.mem_flatMap, List.mem_map]
  constructor
  · rintro ⟨_, ⟨front, hfront, back, hback, rfl⟩, htrees⟩
    obtain ⟨first, last, rfl, hfirst, hlast⟩ := derivesAll_append.mp htrees
    exact ⟨first, last, rfl, ⟨front, hfront, hfirst⟩, back, hback, hlast⟩
  · rintro ⟨first, last, rfl, ⟨front, hfront, hfirst⟩, back, hback, hlast⟩
    exact ⟨front ++ back, ⟨front, hfront, back, hback, rfl⟩,
      derivesAll_append.mpr ⟨first, last, rfl, hfirst, hlast⟩⟩

theorem haveForm_opt : haveForm (Forms.opt form) trees ↔ haveForm form trees ∨ trees = [] := by
  simp [haveForm, Forms.opt, or_and_right, exists_or, derivesAll_nil]

@[simp] theorem haveForm_either_nil : haveForm (Forms.either []) trees ↔ False := by
  simp [haveForm, Forms.either]

@[simp] theorem haveForm_either_cons : haveForm (Forms.either (form :: forms)) trees ↔
    haveForm form trees ∨ haveForm (Forms.either forms) trees := by
  simp [haveForm, Forms.either, or_and_right, exists_or]

theorem haveForm_single : haveForm (Forms.seq [form]) trees ↔ haveForm form trees := by
  simp [haveForm, Forms.seq]

/-- A form of a single step. -/
theorem haveForm_step :
    haveForm [[step]] trees ↔ ∃ tree, trees = [tree] ∧ derives step tree = true := by
  simp only [haveForm, List.mem_singleton, exists_eq_left, derivesAll_cons, derivesAll_nil]
  constructor
  · rintro ⟨tree, _, rfl, htree, rfl⟩
    exact ⟨tree, rfl, htree⟩
  · rintro ⟨tree, rfl, htree⟩
    exact ⟨tree, [], rfl, htree, rfl⟩

/-- A single step before other forms. -/
theorem haveForm_step_cons : haveForm (Forms.seq ([[step]] :: forms)) trees ↔
    ∃ tree rest, trees = tree :: rest ∧ derives step tree = true ∧
      haveForm (Forms.seq forms) rest := by
  simp only [haveForm_cons, haveForm_step]
  constructor
  · rintro ⟨_, last, rfl, ⟨tree, rfl, htree⟩, hlast⟩
    exact ⟨tree, last, rfl, htree, hlast⟩
  · rintro ⟨tree, rest, rfl, htree, hrest⟩
    exact ⟨[tree], rest, rfl, ⟨tree, rfl, htree⟩, hrest⟩

theorem haveForm_append {inner : List Forms} :
    haveForm (Forms.seq (inner ++ forms)) trees ↔
      ∃ first last, trees = first ++ last ∧ haveForm (Forms.seq inner) first ∧
        haveForm (Forms.seq forms) last := by
  induction inner generalizing trees with
  | nil =>
      simp only [List.nil_append, haveForm_nil]
      constructor
      · exact fun h => ⟨[], trees, rfl, rfl, h⟩
      · rintro ⟨_, _, rfl, rfl, h⟩
        exact h
  | cons form inner ih =>
      simp only [List.cons_append, haveForm_cons, ih]
      constructor
      · rintro ⟨first, _, rfl, hfirst, middle, last, rfl, hmiddle, hlast⟩
        exact ⟨first ++ middle, last, by simp, ⟨first, middle, rfl, hfirst, hmiddle⟩, hlast⟩
      · rintro ⟨_, last, rfl, ⟨first, middle, rfl, hfirst, hmiddle⟩, hlast⟩
        exact ⟨first, middle ++ last, by simp, hfirst, middle, last, rfl, hmiddle, hlast⟩

theorem haveForm_role_either_cons {role : Role} :
    haveForm (Forms.role role (Forms.either (form :: forms))) trees ↔
      haveForm (Forms.role role form) trees ∨
        haveForm (Forms.role role (Forms.either forms)) trees := by
  simp [haveForm, Forms.role, Forms.either, or_and_right, exists_or]

/-- Forms one after another within others. -/
@[simp] theorem haveForm_seq_cons {inner : List Forms} :
    haveForm (Forms.seq (Forms.seq inner :: forms)) trees ↔
      haveForm (Forms.seq (inner ++ forms)) trees := by
  rw [haveForm_cons, haveForm_append]

/-! ## Tokens and phrases -/

/-- A step that takes some tokens. -/
theorem derives_tokens {kinds : List Token} {role : Option Role} {names : Bool} :
    derives { symbols := kinds.map .token, role, names } tree = true ↔
      ∃ lexeme, tree = leaf { role, names } lexeme ∧ lexeme.token ∈ kinds := by
  rw [derives_iff]
  constructor
  · rintro ⟨hsymbol, hlabel, -⟩
    cases tree with
    | leaf label lexeme =>
        cases hlabel
        exact ⟨lexeme, rfl, by simpa [symbol] using hsymbol⟩
    | node label rule parts extent => simp [symbol] at hsymbol
  · rintro ⟨lexeme, rfl, hkind⟩
    exact ⟨by simpa [symbol] using hkind, rfl, trivial⟩

/-- A step that takes one token. -/
theorem derives_token {token : Token} {role : Option Role} {names : Bool} :
    derives { symbols := [.token token], role, names } tree = true ↔
      ∃ lead text after, tree = leaf { role, names } ⟨token, lead, text, after⟩ := by
  have hone : [Symbol.token token] = [token].map .token := rfl
  rw [hone, derives_tokens]
  constructor
  · rintro ⟨⟨kind, lead, text, after⟩, rfl, hkind⟩
    obtain rfl : kind = token := List.mem_singleton.mp hkind
    exact ⟨lead, text, after, rfl⟩
  · rintro ⟨lead, text, after, rfl⟩
    exact ⟨_, rfl, List.mem_singleton.mpr rfl⟩

/-- A step that takes phrases of some rules. -/
theorem derives_phrases {rules : List Rule} {role : Option Role} {names : Bool} :
    derives { symbols := rules.map .rule, role, names } tree = true ↔
      ∃ rule ∈ rules, ∃ parts extent, tree = node { role, names } rule parts extent ∧
        (node { role, names } rule parts extent).IsDerived := by
  rw [derives_iff]
  constructor
  · rintro ⟨hsymbol, hlabel, hderived⟩
    cases tree with
    | leaf label lexeme => simp [symbol] at hsymbol
    | node label rule parts extent =>
        cases hlabel
        exact ⟨rule, by simpa [symbol] using hsymbol, parts, extent, rfl, hderived⟩
  · rintro ⟨rule, hrule, parts, extent, rfl, hderived⟩
    exact ⟨by simpa [symbol] using hrule, rfl, hderived⟩

/-- A step that takes phrases of one rule. -/
theorem derives_phrase {role : Option Role} {names : Bool} :
    derives { symbols := [.rule rule], role, names } tree = true ↔
      ∃ parts extent, tree = node { role, names } rule parts extent ∧
        (node { role, names } rule parts extent).IsDerived := by
  have hone : [Symbol.rule rule] = [rule].map .rule := rfl
  rw [hone, derives_phrases]
  simp only [List.mem_singleton, exists_eq_left]

theorem haveForm_tokens {kinds : List Token} : haveForm (Forms.tokens kinds) trees ↔
    ∃ lexeme, trees = [leaf {} lexeme] ∧ lexeme.token ∈ kinds := by
  simp only [Forms.tokens, Forms.oneOf, haveForm_step, derives_tokens]
  constructor
  · rintro ⟨_, rfl, lexeme, rfl, hkind⟩
    exact ⟨lexeme, rfl, hkind⟩
  · rintro ⟨lexeme, rfl, hkind⟩
    exact ⟨_, rfl, lexeme, rfl, hkind⟩

theorem haveForm_phrases {rules : List Rule} : haveForm (Forms.phrases rules) trees ↔
    ∃ rule ∈ rules, ∃ parts extent, trees = [node {} rule parts extent] ∧
      (node {} rule parts extent).IsDerived := by
  simp only [Forms.phrases, Forms.oneOf, haveForm_step, derives_phrases]
  constructor
  · rintro ⟨_, rfl, rule, hrule, parts, extent, rfl, hderived⟩
    exact ⟨rule, hrule, parts, extent, rfl, hderived⟩
  · rintro ⟨rule, hrule, parts, extent, rfl, hderived⟩
    exact ⟨_, rfl, rule, hrule, parts, extent, rfl, hderived⟩

theorem haveForm_phrase : haveForm (Forms.phrase rule) trees ↔
    ∃ parts extent, trees = [node {} rule parts extent] ∧
      (node {} rule parts extent).IsDerived := by
  simp [Forms.phrase, haveForm_phrases]

/-- A step of one token before other forms. -/
theorem haveForm_tokenStep_cons {token : Token} {role : Option Role} {names : Bool} :
    haveForm (Forms.seq ([[{ symbols := [.token token], role, names }]] :: forms)) trees ↔
      ∃ lead text after rest, trees = leaf { role, names } ⟨token, lead, text, after⟩ :: rest ∧
        haveForm (Forms.seq forms) rest := by
  simp only [haveForm_step_cons, derives_token]
  constructor
  · rintro ⟨_, rest, rfl, ⟨lead, text, after, rfl⟩, hrest⟩
    exact ⟨lead, text, after, rest, rfl, hrest⟩
  · rintro ⟨lead, text, after, rest, rfl, hrest⟩
    exact ⟨_, rest, rfl, ⟨lead, text, after, rfl⟩, hrest⟩

/-- A token before other forms. -/
@[simp] theorem haveForm_token_cons {token : Token} :
    haveForm (Forms.seq (Forms.token token :: forms)) trees ↔
      ∃ lead text after rest, trees = leaf {} ⟨token, lead, text, after⟩ :: rest ∧
        haveForm (Forms.seq forms) rest :=
  haveForm_tokenStep_cons

/-- An identifier that names no value before other forms. -/
@[simp] theorem haveForm_label_cons {role : Role} :
    haveForm (Forms.seq (Forms.role role Forms.label :: forms)) trees ↔
      ∃ lead text after rest,
        trees = leaf { role := some role, names := true } ⟨.identifier, lead, text, after⟩ :: rest ∧
          haveForm (Forms.seq forms) rest :=
  haveForm_tokenStep_cons

/-- A step of a phrase of some rules before other forms. -/
theorem haveForm_phrasesStep_cons {rules : List Rule} {role : Option Role} :
    haveForm (Forms.seq ([[{ symbols := rules.map .rule, role }]] :: forms)) trees ↔
      ∃ rule ∈ rules, ∃ parts extent rest, trees = node { role } rule parts extent :: rest ∧
        (node { role } rule parts extent).IsDerived ∧ haveForm (Forms.seq forms) rest := by
  simp only [haveForm_step_cons, derives_phrases]
  constructor
  · rintro ⟨_, rest, rfl, ⟨rule, hrule, parts, extent, rfl, hderived⟩, hrest⟩
    exact ⟨rule, hrule, parts, extent, rest, rfl, hderived, hrest⟩
  · rintro ⟨rule, hrule, parts, extent, rest, rfl, hderived, hrest⟩
    exact ⟨_, rest, rfl, ⟨rule, hrule, parts, extent, rfl, hderived⟩, hrest⟩

/-- A phrase before other forms. -/
@[simp] theorem haveForm_phrase_cons :
    haveForm (Forms.seq (Forms.phrase rule :: forms)) trees ↔
      ∃ parts extent rest, trees = node {} rule parts extent :: rest ∧
        (node {} rule parts extent).IsDerived ∧ haveForm (Forms.seq forms) rest := by
  rw [Forms.phrase, Forms.phrases, Forms.oneOf, haveForm_phrasesStep_cons]
  simp only [List.mem_singleton, exists_eq_left]

/-- Phrases of some rules with a role before other forms. -/
@[simp] theorem haveForm_rolePhrases_cons {rules : List Rule} {role : Role} :
    haveForm (Forms.seq (Forms.role role (Forms.phrases rules) :: forms)) trees ↔
      ∃ rule ∈ rules, ∃ parts extent rest,
        trees = node { role := some role } rule parts extent :: rest ∧
          (node { role := some role } rule parts extent).IsDerived ∧
          haveForm (Forms.seq forms) rest :=
  haveForm_phrasesStep_cons

/-- A token with a role before other forms. -/
@[simp] theorem haveForm_roleTokens_cons {kinds : List Token} {role : Role} :
    haveForm (Forms.seq (Forms.role role (Forms.tokens kinds) :: forms)) trees ↔
      ∃ lexeme rest, trees = leaf { role := some role } lexeme :: rest ∧ lexeme.token ∈ kinds ∧
        haveForm (Forms.seq forms) rest := by
  simp only [Forms.role, Forms.tokens, Forms.oneOf, List.map_cons, List.map_nil,
    haveForm_step_cons, derives_tokens]
  constructor
  · rintro ⟨_, rest, rfl, ⟨lexeme, rfl, hkind⟩, hrest⟩
    exact ⟨lexeme, rest, rfl, hkind, hrest⟩
  · rintro ⟨lexeme, rest, rfl, hkind, hrest⟩
    exact ⟨_, rest, rfl, ⟨lexeme, rfl, hkind⟩, hrest⟩

/-- Forms between two tokens. -/
theorem haveForm_between {opening closing : Token} :
    haveForm (Forms.seq [Forms.token opening, form, Forms.token closing]) trees ↔
      ∃ lead text after body lead' text' after',
        trees = leaf {} ⟨opening, lead, text, after⟩ ::
          (body ++ [leaf {} ⟨closing, lead', text', after'⟩]) ∧ haveForm form body := by
  rw [haveForm_token_cons]
  constructor
  · rintro ⟨lead, text, after, _, rfl, hrest⟩
    obtain ⟨body, _, rfl, hbody, hclose⟩ := haveForm_cons.mp hrest
    rw [haveForm_token_cons] at hclose
    obtain ⟨lead', text', after', _, rfl, hnil⟩ := hclose
    rw [haveForm_nil] at hnil
    exact ⟨lead, text, after, body, lead', text', after', by rw [hnil], hbody⟩
  · rintro ⟨lead, text, after, body, lead', text', after', rfl, hbody⟩
    refine ⟨lead, text, after, _, rfl, haveForm_cons.mpr ⟨body, _, rfl, hbody, ?_⟩⟩
    rw [haveForm_token_cons]
    exact ⟨lead', text', after', [], rfl, haveForm_nil.mpr rfl⟩

/-- The step of a type with a role. -/
def typeStep (role : Option Role) : Step :=
  { symbols := [.rule .simpleType, .rule .parenType], role }

@[simp] theorem haveForm_type_cons :
    haveForm (Forms.seq (Grammar.type :: forms)) trees ↔
      ∃ tree rest, trees = tree :: rest ∧ derives (typeStep none) tree = true ∧
        haveForm (Forms.seq forms) rest :=
  haveForm_step_cons

@[simp] theorem haveForm_roleType_cons {role : Role} :
    haveForm (Forms.seq (Forms.role role Grammar.type :: forms)) trees ↔
      ∃ tree rest, trees = tree :: rest ∧ derives (typeStep (some role)) tree = true ∧
        haveForm (Forms.seq forms) rest :=
  haveForm_step_cons

/-! ## Repetitions -/

theorem toParts_repetition (hrule : rule.isRepetition = true) :
    toParts (node {} rule parts extent) = partsOf parts := by
  have hhidden : rule.isHidden = true := by
    unfold Rule.isHidden
    rw [hrule, Bool.true_or]
  simp [toParts, hhidden, Part.inRole]

/-- The phrase of a repetition is a list of items. -/
theorem IsDerived.repeated (hrule : rule.isRepetition = true)
    (hform : Grammar.formsOf rule = .either [.seq [.phrase rule, .phrase rule], form])
    (parts : List Tree) : ∀ extent label, (node label rule parts extent).IsDerived →
      ∃ items : List (List Tree), items ≠ [] ∧ (∀ item ∈ items, haveForm form item) ∧
        wordsOf parts = items.flatMap wordsOf ∧ spreadAll parts = items.flatMap spreadAll ∧
        partsOf parts = items.flatMap partsOf := by
  induction hsize : sizeOf parts using Nat.strongRecOn generalizing parts with
  | ind size ih =>
      rintro extent label ⟨-, -, hparts⟩
      rw [hform] at hparts
      simp only [haveForm_either_cons, haveForm_either_nil, or_false, haveForm_phrase_cons,
        haveForm_nil] at hparts
      rcases hparts with ⟨front, _, _, rfl, hfront, back, _, _, rfl, hback, rfl⟩ | hitem
      · obtain ⟨items, hne, hitems, hwords, hspread, hmeanings⟩ :=
          ih (sizeOf front) (by rw [← hsize]; simp; omega) front rfl _ _ hfront
        obtain ⟨more, -, hmore, hwords', hspread', hmeanings'⟩ :=
          ih (sizeOf back) (by rw [← hsize]; simp; omega) back rfl _ _ hback
        refine ⟨items ++ more, by simp [hne], ?_, ?_, ?_, ?_⟩
        · intro item hitem
          rcases List.mem_append.mp hitem with hitem | hitem
          · exact hitems item hitem
          · exact hmore item hitem
        · simp [hwords, hwords']
        · simp [spread, hrule, hspread, hspread']
        · simp [toParts_repetition hrule, hmeanings, hmeanings']
      · exact ⟨[parts], by simp, by simpa using hitem, by simp, by simp, by simp⟩

/-! ## First tokens -/

/-- Whether the first step of every form of some rules takes other tokens than the given ones, and
phrases of these rules and of some more rules only. -/
def startOutside (rules more : List Rule) (tokens : List Token) : Bool :=
  Grammar.productions.all fun production =>
    !rules.contains production.rule ||
      match production.steps with
      | [] => false
      | step :: _ => step.symbols.all fun
          | .token token => !tokens.contains token
          | .rule rule => rules.contains rule || more.contains rule

/-- A phrase of such a rule has a first token, which is none of the given ones, or it starts with
a phrase of the other rules. -/
theorem IsDerived.start {rules more : List Rule} {tokens : List Token}
    (houtside : startOutside rules more tokens = true) (parts : List Tree) :
    ∀ {label rule extent}, (node label rule parts extent).IsDerived → rule ∈ rules →
      (∃ word rest, wordsOf parts = word :: rest ∧ word.1 ∉ tokens) ∨
        ∃ label' rule' parts' extent' rest, rule' ∈ more ∧
          (node label' rule' parts' extent').IsDerived ∧
          wordsOf parts = wordsOf parts' ++ rest := by
  induction hsize : sizeOf parts using Nat.strongRecOn generalizing parts with
  | ind size ih =>
      rintro label rule extent ⟨-, -, steps, hsteps, hparts⟩ hrule
      simp only [Grammar.formsOf, List.mem_map, List.mem_filter, beq_iff_eq] at hsteps
      obtain ⟨production, ⟨hmem, rfl⟩, rfl⟩ := hsteps
      have hfirst := List.all_eq_true.mp houtside production hmem
      have hin : rules.contains production.rule = true := by simpa using hrule
      rw [hin, Bool.not_true, Bool.false_or] at hfirst
      cases hforms : production.steps with
      | nil => simp [hforms] at hfirst
      | cons step steps =>
          rw [hforms] at hparts
          obtain ⟨part, others, rfl, hpart, -⟩ := derivesAll_cons.mp hparts
          obtain ⟨htakes, -, hderived⟩ := derives_iff.mp hpart
          simp only [hforms, List.all_eq_true] at hfirst
          have hpart := hfirst part.symbol htakes
          cases part with
          | leaf label lexeme =>
              exact Or.inl ⟨_, wordsOf others, rfl, by simpa [symbol] using hpart⟩
          | node label rule' parts' extent =>
              simp only [symbol, Bool.or_eq_true, List.contains_iff_mem] at hpart
              rcases hpart with hrule' | hmore
              · have hless : sizeOf parts' < size := by
                  rw [← hsize]
                  simp
                  omega
                rcases ih _ hless parts' rfl hderived hrule' with
                  ⟨word, rest, hwords, hword⟩ | ⟨_, _, inner, _, rest, hmore, hinner, hwords⟩
                · exact Or.inl ⟨word, rest ++ wordsOf others, by simp [hwords], hword⟩
                · exact Or.inr ⟨_, _, inner, _, rest ++ wordsOf others, hmore, hinner,
                    by simp [hwords]⟩
              · exact Or.inr ⟨label, rule', parts', extent, wordsOf others, hmore, hderived, rfl⟩

/-- A phrase of such a rule has a first token, and it is none of the given ones. -/
theorem IsDerived.startsOutside {rules : List Rule} {tokens : List Token}
    (hderived : (node label rule parts extent).IsDerived)
    (houtside : startOutside rules [] tokens = true) (hrule : rule ∈ rules) :
    ∃ word rest, wordsOf parts = word :: rest ∧ word.1 ∉ tokens := by
  rcases IsDerived.start houtside parts hderived hrule with
    hword | ⟨_, _, _, _, _, hmore, -⟩
  · exact hword
  · cases hmore

end Tree

end GoAtlas.Source
