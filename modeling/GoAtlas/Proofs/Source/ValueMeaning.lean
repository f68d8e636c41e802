import GoAtlas.Proofs.Source.TypeMeaning

/-!
# What derived expressions mean

The expressions that are kept as they are, which are literals, names, selections and calls, are
told apart from all others by their words.  Of the others only the first words matter: where they
end, and what they mean, is left open.
-/

namespace GoAtlas.Source

open Grammar
open Forms (seq opt either token tokens phrase phrases role)

/-! ## Phrases -/

/-- The signs that a literal takes in. -/
def signTokens : List Token := [.plus, .minus]

/-- The numbers that take in a sign. -/
def numberTokens : List Token := [.integer, .float, .imaginary]

/-- The tokens that are expressions, apart from `new` and `make`. -/
def operandTokens : List Token :=
  [.identifier, .rawString, .quotedString, .integer, .float, .imaginary, .rune, .nilWord,
    .trueWord, .falseWord, .iotaWord]

/-- The tokens that are expressions. -/
def valueTokens : List Token := operandTokens ++ [.newWord, .makeWord]

/-- The tokens that stand before an operand. -/
def unaryTokens : List Token := [.plus, .minus, .bang, .caret, .star, .amp, .arrow]

/-- The first tokens of the expressions that are kept as they are. -/
def valueStarts : List Token := operandTokens ++ signTokens

/-- What may come after an expression. -/
def valueStops : List Token := [.comma, .closeParen] ++ terminators

/-- The tokens by which an operand goes on, apart from dots and parentheses. -/
def operatorTokens : List Token :=
  [.openBracket, .star, .slash, .percent, .shiftLeft, .shiftRight, .amp, .ampCaret, .plus,
    .minus, .bar, .caret, .equal, .notEqual, .less, .lessEqual, .greater, .greaterEqual, .andAnd,
    .orOr]

mutual

/-- `ValuePhrase words value`: the words are an expression and mean `value`. -/
inductive ValuePhrase : List Word → ValueExpr → Prop where
  | token {token : Token} (text : String) (htoken : token ∈ valueTokens) :
      ValuePhrase [(token, text)] (tokenValue {} token text)
  | compound {words : List Word} {value : ValueExpr} (hcompound : CompoundPhrase words value) :
      ValuePhrase words value

/-- An expression of more than one word. -/
inductive CompoundPhrase : List Word → ValueExpr → Prop where
  | number {sign number : Token} (mark text : String) (hsign : sign ∈ signTokens)
      (hnumber : number ∈ numberTokens) :
      CompoundPhrase [(sign, mark), (number, text)] (.literal (mark ++ text))
  | signed {sign : Token} {mark : String} {words : List Word} {operand value : ValueExpr}
      (hsign : sign ∈ signTokens) (hoperand : ValuePhrase words operand)
      (hnumber : ∀ number ∈ numberTokens, ∀ text, words ≠ [(number, text)]) :
      CompoundPhrase ((sign, mark) :: words) value
  | select {dot : String} (package name : String) :
      CompoundPhrase [(.identifier, package), (.dot, dot), (.identifier, name)]
        (.selector package name)
  | selectOther {words : List Word} {operand value : ValueExpr} {dot name : String}
      (hoperand : ValuePhrase words operand)
      (hname : ∀ package, words ≠ [(.identifier, package)]) :
      CompoundPhrase (words ++ [(.dot, dot), (.identifier, name)]) value
  | call {words more : List Word} {callee : ValueExpr} {args : List ValueExpr}
      (hcallee : ValuePhrase words callee) (hargs : ArgsPhrase more args) :
      CompoundPhrase (words ++ more) (.call callee args)
  | conversion {words operand body : List Word} {opening closing : String} {type : TypeExpr}
      {value : ValueExpr} (htype : TypePhrase words type) (hoperand : ValuePhrase operand value)
      (hbody : Separated [.comma] [operand] body) :
      CompoundPhrase (words ++ (.openParen, opening) :: (body ++ [(.closeParen, closing)]))
        (.call (Parts.conversionCallee type) [value])
  | goesOn {words more : List Word} {word : Word} {operand value : ValueExpr}
      (hoperand : ValuePhrase words operand) (hword : word.1 ∈ operatorTokens) :
      CompoundPhrase (words ++ word :: more) value
  | assertion {words more : List Word} {dot opening : String} {operand value : ValueExpr}
      (hoperand : ValuePhrase words operand) :
      CompoundPhrase (words ++ (.dot, dot) :: (.openParen, opening) :: more) value
  | typeGoesOn {words more : List Word} {word : Word} {type : TypeExpr} {value : ValueExpr}
      (htype : TypePhrase words type) (hword : word.1 = .openBracket ∨ word.1 = .openBrace) :
      CompoundPhrase (words ++ word :: more) value
  | other {word : Word} {more : List Word} {value : ValueExpr}
      (hword : word.1 ∉ valueStarts ++ valueStops) : CompoundPhrase (word :: more) value

/-- The arguments of a call. -/
inductive ArgsPhrase : List Word → List ValueExpr → Prop where
  | list {opening closing : String} {items : List (List Word)} {body : List Word}
      {args : List ValueExpr} (hbody : Separated [.comma] items body)
      (hargs : List.Forall₂ ArgPhrase items args) :
      ArgsPhrase ((.openParen, opening) :: (body ++ [(.closeParen, closing)])) args

/-- An argument of a call. -/
inductive ArgPhrase : List Word → ValueExpr → Prop where
  | plain {words : List Word} {value : ValueExpr} (hvalue : ValuePhrase words value) :
      ArgPhrase words value
  | variadic {words : List Word} {ellipsis : String} {operand value : ValueExpr}
      (hoperand : ValuePhrase words operand) :
      ArgPhrase (words ++ [(.ellipsis, ellipsis)]) value

end

theorem ArgsPhrase.length {words : List Word} {args : List ValueExpr}
    (hargs : ArgsPhrase words args) : 2 ≤ words.length := by
  cases hargs
  simp

theorem TypePhrase.ne_nil {words : List Word} {type : TypeExpr} (htype : TypePhrase words type) :
    words ≠ [] := by
  cases htype <;> simp

theorem CompoundPhrase.ne_nil {words : List Word} {value : ValueExpr}
    (hvalue : CompoundPhrase words value) : words ≠ [] := by
  cases hvalue with
  | call _ hargs =>
      have hlength := hargs.length
      intro hnil
      simp [(List.append_eq_nil_iff.mp hnil).2] at hlength
  | _ => simp

theorem ValuePhrase.ne_nil {words : List Word} {value : ValueExpr}
    (hvalue : ValuePhrase words value) : words ≠ [] := by
  cases hvalue with
  | token => simp
  | compound hcompound => exact hcompound.ne_nil

/-- An expression that is a single word is a token, unless it is none of those kept as they
are. -/
theorem CompoundPhrase.single {word : Word} {words : List Word} {value : ValueExpr}
    (hvalue : CompoundPhrase words value) (hwords : words = [word]) : word.1 ∉ valueStarts := by
  cases hvalue with
  | number => simp at hwords
  | signed _ hoperand _ => simp [hoperand.ne_nil] at hwords
  | select => simp at hwords
  | selectOther => simp [List.append_eq_cons_iff] at hwords
  | call _ hargs =>
      have hlength := hargs.length
      have htotal := congrArg List.length hwords
      simp only [List.length_append, List.length_cons, List.length_nil] at htotal
      omega
  | conversion => simp [List.append_eq_cons_iff] at hwords
  | goesOn hoperand _ => simp [List.append_eq_cons_iff, hoperand.ne_nil] at hwords
  | assertion => simp [List.append_eq_cons_iff] at hwords
  | typeGoesOn htype _ => simp [List.append_eq_cons_iff, htype.ne_nil] at hwords
  | other hword =>
      cases hwords
      exact fun hstart => hword (List.mem_append_left _ hstart)

namespace Tree

variable {tree : Tree} {trees parts : List Tree} {rule : Rule} {extent : Extent} {size : Nat}

/-! ## Operands -/

/-- The step of an expression with a role. -/
def exprStep (role : Option Role) : Step := { symbols := [.rule .expr], role }

/-- A tree stands for one part, an expression with a role: a token, or a phrase. -/
structure IsValuePart (tree : Tree) (part : Part) : Prop where
  parts : tree.toParts = [part]
  counts : part.counts = true
  kinds : (∃ token ∈ valueTokens, part.symbol = .token token ∧ part.label.names = false ∧
      part.meaning.value = tokenValue {} token part.text ∧ tree.words = [(token, part.text)]) ∨
    (∃ rule, part.symbol = .rule rule ∧ CompoundPhrase tree.words part.meaning.value)

/-- A part that is a token has a single word. -/
theorem IsValuePart.words_of_token {part : Part} {token : Token} (hpart : tree.IsValuePart part)
    (htoken : part.isToken token = true) : tree.words = [(token, part.text)] := by
  rw [Part.isToken, beq_iff_eq] at htoken
  rcases hpart.kinds with ⟨other, -, hsymbol, -, -, hwords⟩ | ⟨rule, hsymbol, -⟩
  · cases htoken.symm.trans hsymbol
    exact hwords
  · cases htoken.symm.trans hsymbol

/-- A single word that is an expression is a token. -/
theorem IsValuePart.of_single {part : Part} {token : Token} {text : String}
    (hpart : tree.IsValuePart part) (htoken : token ∈ operandTokens)
    (hwords : tree.words = [(token, text)]) :
    part.isToken token = true ∧ part.text = text ∧ part.label.names = false := by
  rcases hpart.kinds with ⟨other, -, hsymbol, hnames, -, hother⟩ | ⟨rule, -, hcompound⟩
  · cases hother.symm.trans hwords
    exact ⟨by simp [Part.isToken, hsymbol], rfl, hnames⟩
  · exact absurd (List.mem_append_left _ htoken) (hcompound.single hwords)

theorem IsValuePart.phrase {part : Part} (hpart : tree.IsValuePart part) :
    ValuePhrase tree.words part.meaning.value := by
  rcases hpart.kinds with ⟨token, htoken, -, -, hvalue, hwords⟩ | ⟨_, -, hcompound⟩
  · rw [hvalue, hwords]
    exact .token _ htoken
  · exact .compound hcompound

/-- The expressions with fewer words mean what they say. -/
def ValuesBelow (size : Nat) : Prop :=
  ∀ role tree, derives (exprStep role) tree = true → tree.words.length < size →
    ∃ part, tree.IsValuePart part ∧ part.label.role = role

@[simp] theorem haveForm_expr_cons {forms : List Forms} :
    haveForm (seq (expr :: forms)) trees ↔
      ∃ tree rest, trees = tree :: rest ∧ derives (exprStep none) tree = true ∧
        haveForm (seq forms) rest :=
  haveForm_step_cons

@[simp] theorem haveForm_roleExpr_cons {forms : List Forms} {role : Role} :
    haveForm (seq (Forms.role role expr :: forms)) trees ↔
      ∃ tree rest, trees = tree :: rest ∧ derives (exprStep (some role)) tree = true ∧
        haveForm (seq forms) rest :=
  haveForm_step_cons

theorem formsOf_unary : formsOf .unary =
    seq [role .operator (tokens unaryTokens), role .operand expr] :=
  (formsOf_eq _).trans rfl

theorem formsOf_selector : formsOf .selector =
    seq [role .operand expr, token .dot, role .field Forms.label] :=
  (formsOf_eq _).trans rfl

theorem formsOf_indexExpr : formsOf .indexExpr =
    seq [expr, token .openBracket, expr, token .closeBracket] :=
  (formsOf_eq _).trans rfl

theorem formsOf_sliceExpr : formsOf .sliceExpr =
    seq [expr, token .openBracket, either
      [seq [opt expr, token .colon, opt expr],
        seq [opt expr, token .colon, expr, token .colon, expr]], token .closeBracket] :=
  (formsOf_eq _).trans rfl

theorem formsOf_typeAssertion : formsOf .typeAssertion =
    seq [expr, token .dot, token .openParen, type, token .closeParen] :=
  (formsOf_eq _).trans rfl

theorem formsOf_binary : formsOf .binary =
    either
      [seq [expr, tokens [.star, .slash, .percent, .shiftLeft, .shiftRight, .amp, .ampCaret], expr],
        seq [expr, tokens [.plus, .minus, .bar, .caret], expr],
        seq [expr, tokens [.equal, .notEqual, .less, .lessEqual, .greater, .greaterEqual], expr],
        seq [expr, token .andAnd, expr], seq [expr, token .orOr, expr]] :=
  (formsOf_eq _).trans rfl

/-- The operand of a phrase that goes on with a mark. -/
theorem goesOn_means {kinds : List Token} {forms : List Forms} {value : ValueExpr}
    (hbelow : ValuesBelow size) (hsize : (wordsOf parts).length ≤ size)
    (hkinds : ∀ kind ∈ kinds, kind ∈ operatorTokens)
    (hform : haveForm (seq (expr :: tokens kinds :: forms)) parts) :
    CompoundPhrase (wordsOf parts) value := by
  simp only [haveForm_expr_cons] at hform
  obtain ⟨operand, _, rfl, hoperand, hrest⟩ := hform
  obtain ⟨_, last, rfl, hmark, -⟩ := haveForm_cons.mp hrest
  obtain ⟨lexeme, rfl, hlexeme⟩ := haveForm_tokens.mp hmark
  obtain ⟨part, hpart, -⟩ := hbelow _ _ hoperand (by simp at hsize; omega)
  simpa using CompoundPhrase.goesOn hpart.phrase (hkinds _ hlexeme)

theorem binary_means {value : ValueExpr} (hbelow : ValuesBelow size)
    (hsize : (wordsOf parts).length ≤ size) (hform : haveForm (formsOf .binary) parts) :
    CompoundPhrase (wordsOf parts) value := by
  simp only [formsOf_binary, haveForm_either_cons, haveForm_either_nil, or_false] at hform
  rcases hform with hform | hform | hform | hform | hform
  all_goals exact goesOn_means hbelow hsize (by decide) hform

theorem typeAssertion_means {value : ValueExpr} (hbelow : ValuesBelow size)
    (hsize : (wordsOf parts).length ≤ size) (hform : haveForm (formsOf .typeAssertion) parts) :
    CompoundPhrase (wordsOf parts) value := by
  simp only [formsOf_typeAssertion, haveForm_expr_cons, haveForm_token_cons] at hform
  obtain ⟨operand, _, rfl, hoperand, _, _, _, _, rfl, _, _, _, _, rfl, -⟩ := hform
  obtain ⟨part, hpart, -⟩ := hbelow _ _ hoperand (by simp at hsize; omega)
  simpa using CompoundPhrase.assertion hpart.phrase

theorem unaryTokens_other :
    ∀ mark ∈ unaryTokens, mark ∉ signTokens → mark ∉ valueStarts ++ valueStops := by
  decide

theorem numberTokens_operand : ∀ number ∈ numberTokens, number ∈ operandTokens := by decide

theorem isNumber_iff {part : Part} :
    Parts.isNumber part = true ↔ ∃ number ∈ numberTokens, part.isToken number = true := by
  simp [Parts.isNumber, numberTokens, or_assoc]

theorem unary_means (hbelow : ValuesBelow size) (hsize : (wordsOf parts).length ≤ size)
    (hform : haveForm (formsOf .unary) parts) :
    CompoundPhrase (wordsOf parts) (Parts.toValue .unary (partsOf parts)) := by
  simp only [formsOf_unary, haveForm_roleTokens_cons, haveForm_roleExpr_cons,
    haveForm_nil] at hform
  obtain ⟨⟨mark, _, text, _⟩, _, rfl, hmark, operand, _, rfl, hoperand, rfl⟩ := hform
  obtain ⟨part, hpart, hrole⟩ := hbelow _ _ hoperand (by simp at hsize; omega)
  by_cases hsign : mark ∈ signTokens
  · have htakes : (mark = .minus ∨ mark = .plus) := by
      simpa [signTokens, or_comm] using hsign
    by_cases hnumber : Parts.isNumber part = true
    · obtain ⟨number, hin, htoken⟩ := isNumber_iff.mp hnumber
      have hwords := hpart.words_of_token htoken
      have hphrase := CompoundPhrase.number (String.ofList text) part.text hsign hin
      simpa [Parts.toValue, Parts.signed, hpart.parts, hrole, Part.isToken, htakes, hnumber, hwords]
        using hphrase
    · have hother : ∀ number ∈ numberTokens, ∀ text, operand.words ≠ [(number, text)] := by
        intro number hin text hwords
        have hsingle := hpart.of_single (numberTokens_operand number hin) hwords
        exact hnumber (isNumber_iff.mpr ⟨number, hin, hsingle.1⟩)
      simpa using CompoundPhrase.signed hsign hpart.phrase hother
  · simpa using CompoundPhrase.other (unaryTokens_other mark hmark hsign)

theorem selector_means (hbelow : ValuesBelow size) (hsize : (wordsOf parts).length ≤ size)
    (hform : haveForm (formsOf .selector) parts) :
    CompoundPhrase (wordsOf parts) (Parts.toValue .selector (partsOf parts)) := by
  simp only [formsOf_selector, haveForm_token_cons, haveForm_roleExpr_cons, haveForm_label_cons,
    haveForm_nil] at hform
  obtain ⟨operand, _, rfl, hoperand, _, _, _, _, rfl, _, name, _, _, rfl, rfl⟩ := hform
  obtain ⟨part, hpart, hrole⟩ := hbelow _ _ hoperand (by simp at hsize; omega)
  by_cases hname : ∃ package, operand.words = [(.identifier, package)]
  · obtain ⟨package, hwords⟩ := hname
    obtain ⟨htoken, rfl, hnames⟩ := hpart.of_single (by decide) hwords
    simpa [Parts.toValue, Parts.selection, hpart.parts, hrole, Parts.isName, htoken, hnames, hwords]
      using CompoundPhrase.select part.text (String.ofList name)
  · simpa using CompoundPhrase.selectOther hpart.phrase (not_exists.mp hname)

/-! ## Calls -/

/-- The step of an argument. -/
def argStep : Step := { symbols := [.rule .expr, .rule .variadicArg] }

theorem formsOf_call : formsOf .call =
    either [seq [role .function (tokens [.newWord, .makeWord]), role .args (phrase .typedArgs)],
      seq [role .function expr, opt (phrase .typeArgs), role .args (phrase .args)]] :=
  (formsOf_eq _).trans rfl

theorem formsOf_args : formsOf .args =
    seq [token .openParen,
      opt (seq [[[argStep]], opt (phrase .argTail), opt (tokens [.comma])]),
      token .closeParen] :=
  (formsOf_eq _).trans rfl

theorem formsOf_argTail : formsOf .argTail =
    either [seq [phrase .argTail, phrase .argTail], seq [tokens [.comma], [[argStep]]]] :=
  (formsOf_eq _).trans rfl

theorem formsOf_variadicArg : formsOf .variadicArg = seq [expr, token .ellipsis] :=
  (formsOf_eq _).trans rfl

theorem formsOf_conversion : formsOf .conversion =
    seq [role .type type, token .openParen, role .operand expr, opt (token .comma),
      token .closeParen] :=
  (formsOf_eq _).trans rfl

theorem formsOf_instantiation : formsOf .instantiation =
    seq [type, token .openBracket, type, opt (phrase .typeTail), opt (token .comma),
      token .closeBracket] :=
  (formsOf_eq _).trans rfl

/-- The value of a part, if the part counts. -/
def operandOf (part : Part) : List ValueExpr :=
  if part.counts then [part.meaning.value] else []

theorem operands_eq (parts : Parts) : Parts.operands parts = parts.flatMap operandOf := by
  induction parts with
  | nil => rfl
  | cons part parts ih =>
      cases hcounts : part.counts <;> simp_all [Parts.operands, Parts.proper, operandOf]

@[simp] theorem operands_nil : Parts.operands [] = [] := rfl

@[simp] theorem operands_cons {part : Part} {parts : Parts} :
    Parts.operands (part :: parts) = operandOf part ++ Parts.operands parts := by
  simp [operands_eq]

@[simp] theorem operands_append {front back : Parts} :
    Parts.operands (front ++ back) = Parts.operands front ++ Parts.operands back := by
  simp [operands_eq]

/-- The operands of a list are those of its items. -/
theorem Contribute.operands {items spreads : List Tree} {meanings : Parts}
    (hcontribute : Contribute [.comma] items spreads meanings) :
    Parts.operands meanings = items.flatMap fun item => Parts.operands item.toParts := by
  simp only [operands_eq]
  refine hcontribute.parts operandOf fun lexeme hlexeme => ?_
  simp [operandOf, List.mem_singleton.mp hlexeme, Part.tokenCounts]

theorem argStep_means (hbelow : ValuesBelow size) (hsize : tree.words.length < size)
    (hitem : derives argStep tree = true) :
    ∃ value, Parts.operands tree.toParts = [value] ∧ ArgPhrase tree.words value := by
  obtain ⟨rule, hrule, parts, extent, rfl, hderived⟩ :=
    (@derives_phrases tree [.expr, .variadicArg] none false).mp hitem
  simp only [List.mem_cons, List.not_mem_nil, or_false] at hrule
  rcases hrule with rfl | rfl
  · have hexpr : derives (exprStep none) (node {} .expr parts extent) = true :=
      derives_iff.mpr ⟨by simp [exprStep, symbol], rfl, hderived⟩
    obtain ⟨part, hpart, -⟩ := hbelow _ _ hexpr hsize
    exact ⟨part.meaning.value, by simp [operandOf, hpart.parts, hpart.counts],
      .plain hpart.phrase⟩
  · have hform := hderived.2.2
    simp only [formsOf_variadicArg, haveForm_expr_cons, haveForm_token_cons, haveForm_nil] at hform
    obtain ⟨operand, _, rfl, hoperand, _, _, _, _, rfl, rfl⟩ := hform
    obtain ⟨part, hpart, -⟩ := hbelow _ _ hoperand (by simp at hsize; omega)
    rw [toParts_node (by decide)]
    exact ⟨_, rfl, by simpa using ArgPhrase.variadic hpart.phrase⟩

/-- A list of arguments in parentheses. -/
theorem args_means {label : Label} (hbelow : ValuesBelow size)
    (hsize : (wordsOf parts).length ≤ size)
    (hderived : (node label .args parts extent).IsDerived) :
    ArgsPhrase (wordsOf parts) (Parts.operands (partsOf parts)) := by
  have hform := hderived.2.2
  rw [formsOf_args, haveForm_between] at hform
  obtain ⟨_, _, _, body, _, _, _, rfl, hbody⟩ := hform
  obtain ⟨items, hitems, hseparated, hcontribute⟩ :=
    separated_of_opt (by decide) formsOf_argTail hbody
  have hargs := forall₂_items fun item hitem => by
    have hle := hseparated.length_le item.words (List.mem_map_of_mem hitem)
    exact argStep_means hbelow (by simp at hsize; omega) (hitems item hitem)
  rw [← hcontribute.operands] at hargs
  simpa [operandOf, Part.tokenCounts] using ArgsPhrase.list hseparated hargs

theorem typedFunction_other :
    ∀ word ∈ [Token.newWord, .makeWord], word ∉ valueStarts ++ valueStops := by decide

theorem args_isHidden : Rule.isHidden .args = false := by decide

theorem call_means (hbelow : ValuesBelow size) (hsize : (wordsOf parts).length ≤ size)
    (hform : haveForm (formsOf .call) parts) :
    CompoundPhrase (wordsOf parts) (Parts.toValue .call (partsOf parts)) := by
  simp only [formsOf_call, haveForm_either_cons, haveForm_either_nil, or_false] at hform
  rcases hform with htyped | hplain
  · simp only [haveForm_roleTokens_cons] at htyped
    obtain ⟨lexeme, _, rfl, htoken, -⟩ := htyped
    simpa using CompoundPhrase.other (typedFunction_other _ htoken)
  · simp only [haveForm_roleExpr_cons] at hplain
    obtain ⟨callee, _, rfl, hcallee, hrest⟩ := hplain
    rcases haveForm_opt_cons.mp hrest with hrest | hrest
    · simp only [haveForm_phrase_cons] at hrest
      obtain ⟨types, _, _, rfl, htypes, -⟩ := hrest
      have hopen := htypes.2.2
      simp only [formsOf_typeArgs, haveForm_token_cons] at hopen
      obtain ⟨_, _, _, _, rfl, -⟩ := hopen
      obtain ⟨part, hpart, -⟩ := hbelow _ _ hcallee (by simp at hsize; omega)
      have hbracket : Token.openBracket ∈ operatorTokens := by decide
      simpa using CompoundPhrase.goesOn hpart.phrase hbracket
    · simp only [phrase, haveForm_rolePhrases_cons, haveForm_nil, List.mem_singleton] at hrest
      obtain ⟨_, rfl, args, extent, _, rfl, hderived, rfl⟩ := hrest
      have hargs := args_means hbelow (by simp at hsize; omega) hderived
      have hlength := hargs.length
      obtain ⟨part, hpart, hrole⟩ := hbelow _ _ hcallee (by simp at hsize; omega)
      simpa [Parts.toValue, Parts.valuesOf, hpart.parts, hrole, toParts_node, args_isHidden,
        phraseMeaning] using CompoundPhrase.call hpart.phrase hargs

theorem conversion_means (hbelow : ValuesBelow size) (hsize : (wordsOf parts).length ≤ size)
    (hform : haveForm (formsOf .conversion) parts) :
    CompoundPhrase (wordsOf parts) (Parts.toValue .conversion (partsOf parts)) := by
  simp only [formsOf_conversion, haveForm_roleType_cons, haveForm_token_cons,
    haveForm_roleExpr_cons] at hform
  obtain ⟨type, _, rfl, htype, _, _, _, _, rfl, operand, _, rfl, hoperand, hrest⟩ := hform
  obtain ⟨comma, _, rfl, hcomma, hclose⟩ := haveForm_cons.mp hrest
  simp only [haveForm_token_cons, haveForm_nil] at hclose
  obtain ⟨_, _, _, _, rfl, rfl⟩ := hclose
  obtain ⟨typePart, htypePart, -, htypeRole, -, htypePhrase⟩ := type_means htype
  obtain ⟨part, hpart, hrole⟩ := hbelow _ _ hoperand (by simp at hsize; omega)
  have hbody : Separated [.comma] [operand.words] (operand.words ++ wordsOf comma) :=
    .cons (haveForm_separator (haveForm_opt.mp hcomma)).1
  simpa [Parts.toValue, Parts.typeOf, htypePart, htypeRole, hpart.parts, hrole] using
    CompoundPhrase.conversion htypePhrase hpart.phrase hbody

theorem instantiation_means {value : ValueExpr} (hform : haveForm (formsOf .instantiation) parts) :
    CompoundPhrase (wordsOf parts) value := by
  simp only [formsOf_instantiation, haveForm_type_cons, haveForm_token_cons] at hform
  obtain ⟨type, _, rfl, htype, _, _, _, _, rfl, -⟩ := hform
  obtain ⟨part, hpart, -, -, -, hphrase⟩ := type_means htype
  simpa using CompoundPhrase.typeGoesOn hphrase (Or.inl rfl)

/-! ## All expressions -/

theorem formsOf_compositeLiteral : formsOf .compositeLiteral =
    either
      [seq [phrases [.mapType, .sliceType, .arrayType, .countedArrayType, .structType,
          .genericType, .qualifiedType], phrase .literalBody],
        seq [Forms.label, phrase .literalBody]] :=
  (formsOf_eq _).trans rfl

theorem formsOf_literalBody : formsOf .literalBody =
    seq [token .openBrace, opt (either
      [seq [phrases [.element, .keyedElement], opt (phrase .elementTail), opt (token .comma)],
        token .comma]), token .closeBrace] :=
  (formsOf_eq _).trans rfl

/-- The rules of expressions. -/
def exprRules : List Rule :=
  [.unary, .binary, .selector, .indexExpr, .sliceExpr, .call, .typeAssertion, .conversion,
    .instantiation, .compositeLiteral, .funcLiteral, .parenExpr]

theorem exprRules_visible : ∀ rule ∈ exprRules, rule.isHidden = false := by decide

theorem formsOf_expr : formsOf .expr =
    either [Forms.oneOf (exprRules.map .rule ++ operandTokens.map .token),
      tokens [.newWord, .makeWord]] :=
  (formsOf_eq _).trans rfl

/-- The rules of phrases that start with none of the tokens of the expressions kept as they are,
and with none that stop an expression. -/
def otherRules : List Rule :=
  [.funcLiteral, .parenExpr, .mapType, .sliceType, .arrayType, .countedArrayType, .structType]

theorem otherRules_start : startOutside otherRules [] (valueStarts ++ valueStops) = true := by
  decide +kernel

theorem other_means {label : Label} {rest : List Word} {value : ValueExpr}
    (hrule : rule ∈ otherRules) (hderived : (node label rule parts extent).IsDerived) :
    CompoundPhrase (wordsOf parts ++ rest) value := by
  obtain ⟨word, more, hwords, hword⟩ := hderived.startsOutside otherRules_start hrule
  rw [hwords, List.cons_append]
  exact .other hword

theorem literalBody_start {words : List Word} {value : ValueExpr} {type : TypeExpr}
    (htype : TypePhrase words type) (hbody : haveForm (seq [phrase .literalBody]) trees) :
    CompoundPhrase (words ++ wordsOf trees) value := by
  simp only [haveForm_phrase_cons, haveForm_nil] at hbody
  obtain ⟨body, _, _, rfl, hderived, rfl⟩ := hbody
  have hform := hderived.2.2
  simp only [formsOf_literalBody, haveForm_token_cons] at hform
  obtain ⟨_, _, _, _, rfl, -⟩ := hform
  simpa using CompoundPhrase.typeGoesOn htype (Or.inr rfl)

theorem compositeLiteral_means {value : ValueExpr}
    (hform : haveForm (formsOf .compositeLiteral) parts) :
    CompoundPhrase (wordsOf parts) value := by
  simp only [formsOf_compositeLiteral, haveForm_either_cons, haveForm_either_nil, or_false] at hform
  rcases hform with htyped | hnamed
  · obtain ⟨tree, rest, rfl, htree, hrest⟩ := haveForm_step_cons.mp htyped
    obtain ⟨rule, hrule, inner, extent, rfl, hderived⟩ := derives_phrases.mp htree
    rw [wordsOf_cons, words_node]
    simp only [List.mem_cons, List.not_mem_nil, or_false] at hrule
    rcases hrule with rfl | rfl | rfl | rfl | rfl | rfl | rfl
    iterate 5 exact other_means (by decide) hderived
    · exact literalBody_start (genericType_means hderived.2.2 (.unsupported "")) hrest
    · exact literalBody_start (qualifiedType_means hderived.2.2 extent.broken) hrest
  · obtain ⟨tree, rest, rfl, htree, hrest⟩ := haveForm_step_cons.mp hnamed
    obtain ⟨_, name, _, rfl⟩ := derives_token.mp htree
    exact literalBody_start (.name (String.ofList name)) hrest

/-- A phrase of a rule of expressions means what its words say. -/
theorem exprRule_means (hbelow : ValuesBelow size) (hsize : (wordsOf parts).length ≤ size)
    (hrule : rule ∈ exprRules) (hderived : (node {} rule parts extent).IsDerived) :
    CompoundPhrase (wordsOf parts) ((partsOf parts).toValue rule) := by
  have hform := hderived.2.2
  simp only [exprRules, List.mem_cons, List.not_mem_nil, or_false] at hrule
  rcases hrule with rfl | rfl | rfl | rfl | rfl | rfl | rfl | rfl | rfl | rfl | rfl | rfl
  · exact unary_means hbelow hsize hform
  · exact binary_means hbelow hsize hform
  · exact selector_means hbelow hsize hform
  · rw [formsOf_indexExpr] at hform
    exact goesOn_means hbelow hsize (by decide) hform
  · rw [formsOf_sliceExpr] at hform
    exact goesOn_means hbelow hsize (by decide) hform
  · exact call_means hbelow hsize hform
  · exact typeAssertion_means hbelow hsize hform
  · exact conversion_means hbelow hsize hform
  · exact instantiation_means hform
  · exact compositeLiteral_means hform
  · simpa using @other_means _ _ _ _ [] _ (by decide) hderived
  · simpa using @other_means _ _ _ _ [] _ (by decide) hderived

theorem isValuePart_expr {part : Part} {role : Option Role}
    (hpart : partsOf parts = [part]) (hrole : part.label.role = none) (hcounts : part.counts = true)
    (hkinds : (∃ token ∈ valueTokens, part.symbol = .token token ∧ part.label.names = false ∧
        part.meaning.value = tokenValue {} token part.text ∧
        wordsOf parts = [(token, part.text)]) ∨
      (∃ rule, part.symbol = .rule rule ∧ CompoundPhrase (wordsOf parts) part.meaning.value)) :
    ∃ part, (node { role } .expr parts extent).IsValuePart part ∧ part.label.role = role := by
  obtain ⟨hsymbol, hmeaning, htext, hnames⟩ := inRole_same part role
  have hhidden : Rule.isHidden .expr = true := by decide
  refine ⟨part.inRole role, ⟨by simp [toParts, hhidden, hpart], ?_, ?_⟩, role_inRole hrole role⟩
  · simpa [Part.counts, hsymbol] using hcounts
  · simpa [hsymbol, hmeaning, htext, hnames] using hkinds

theorem valueTokens_count : ∀ token ∈ valueTokens, Part.tokenCounts token = true := by decide

theorem valuesBelow (size : Nat) : ValuesBelow size := by
  induction size with
  | zero => exact fun _ _ _ hsize => absurd hsize (Nat.not_lt_zero _)
  | succ size hbelow =>
      intro role tree htree hsize
      obtain ⟨parts, extent, rfl, hderived⟩ := derives_phrase.mp htree
      have hle : (wordsOf parts).length ≤ size := by simpa [Nat.lt_succ_iff] using hsize
      have hkind : (∃ rule ∈ exprRules, ∃ inner extent, parts = [node {} rule inner extent] ∧
            (node {} rule inner extent).IsDerived) ∨
          ∃ lexeme, parts = [leaf {} lexeme] ∧ lexeme.token ∈ valueTokens := by
        have hform := hderived.2.2
        simp only [formsOf_expr, haveForm_either_cons, haveForm_either_nil, or_false] at hform
        rcases hform with hone | htyped
        · obtain ⟨inner, rfl, hinner⟩ := haveForm_step.mp hone
          obtain ⟨hsymbol, hlabel, hderived⟩ := derives_iff.mp hinner
          cases inner with
          | leaf label lexeme =>
              cases hlabel
              simp only [symbol, List.mem_append, List.mem_map, reduceCtorEq, and_false,
                exists_false, false_or, Symbol.token.injEq, exists_eq_right] at hsymbol
              exact Or.inr ⟨lexeme, rfl, List.mem_append_left _ hsymbol⟩
          | node label rule inner extent =>
              cases hlabel
              simp only [symbol, List.mem_append, List.mem_map, reduceCtorEq, and_false,
                exists_false, or_false, Symbol.rule.injEq, exists_eq_right] at hsymbol
              exact Or.inl ⟨rule, hsymbol, inner, extent, rfl, hderived⟩
        · obtain ⟨lexeme, rfl, htoken⟩ := haveForm_tokens.mp htyped
          exact Or.inr ⟨lexeme, rfl, List.mem_append_right _ htoken⟩
      rcases hkind with ⟨rule, hrule, inner, extent, rfl, hinner⟩ | ⟨lexeme, rfl, htoken⟩
      · have hmeans := exprRule_means hbelow (by simpa using hle) hrule hinner
        have hvisible := exprRules_visible rule hrule
        have hwords : wordsOf [node {} rule inner extent] = wordsOf inner := by simp
        refine isValuePart_expr (partsOf_node hvisible) rfl rfl (Or.inr ⟨rule, rfl, ?_⟩)
        rw [hwords]
        exact hmeans
      · exact isValuePart_expr rfl rfl (valueTokens_count _ htoken)
          (Or.inl ⟨_, htoken, rfl, rfl, rfl, by simp⟩)

/-- An expression means what its words say. -/
theorem value_means {role : Option Role} (htree : derives (exprStep role) tree = true) :
    ∃ part, tree.IsValuePart part ∧ part.label.role = role :=
  valuesBelow _ role tree htree (Nat.lt_succ_self _)

end Tree

end GoAtlas.Source


