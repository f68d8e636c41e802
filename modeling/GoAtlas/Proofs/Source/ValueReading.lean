import GoAtlas.Proofs.Source.TypeReading
import GoAtlas.Proofs.Source.ValueMeaning

/-!
# Spelled values are read back

An expression can be a part of a spelled value: the function of a call, or a package.  What it
leaves over then starts with a parenthesis or a dot, and no phrase but a call or a selection goes
on in this way.  The induction is on the number of words of the expression.
-/

namespace GoAtlas.Source

variable {rest rest' words specWords : List Word} {value spec : ValueExpr}
  {size : Nat}

/-! ## Spellings -/

/-- The words of a value that can be called, or of a literal without a sign. -/
inductive OperandSpelling : List Word → ValueExpr → Prop where
  | word {token : Token} (text : String) (htoken : token ∈ operandTokens) :
      OperandSpelling [(token, text)] (tokenValue {} token text)
  | select (package name : String) :
      OperandSpelling [(.identifier, package), (.dot, "."), (.identifier, name)]
        (.selector package name)

/-- The words of a supported value. -/
inductive ValueSpelling : List Word → ValueExpr → Prop where
  | operand {words : List Word} {value : ValueExpr} (hoperand : OperandSpelling words value) :
      ValueSpelling words value
  | number {sign number : Token} (mark text : String) (hsign : sign ∈ signTokens)
      (hnumber : number ∈ numberTokens) :
      ValueSpelling [(sign, mark), (number, text)] (.literal (mark ++ text))
  | call {words : List Word} {callee : ValueExpr} {args : List ValueExpr}
      (hcallee : OperandSpelling words callee) (hargs : ∀ arg ∈ args, ValueSpelling arg.words arg) :
      ValueSpelling (words ++ parenWords (commaWords (args.map ValueExpr.words)))
        (.call callee args)

theorem ValueSpelling.start (hspec : ValueSpelling specWords spec) :
    ∃ word more, specWords = word :: more ∧ word.1 ∈ valueStarts := by
  cases hspec with
  | operand hoperand =>
      cases hoperand with
      | word text htoken => exact ⟨_, _, rfl, List.mem_append_left _ htoken⟩
      | select => exact ⟨_, _, rfl, by simp [valueStarts, operandTokens]⟩
  | number mark text hsign => exact ⟨_, _, rfl, List.mem_append_right _ hsign⟩
  | call hcallee _ =>
      cases hcallee with
      | word text htoken => exact ⟨_, _, rfl, List.mem_append_left _ htoken⟩
      | select => exact ⟨_, _, rfl, by simp [valueStarts, operandTokens]⟩

/-! ## Parts of a spelled value -/

/-- How an expression can start a spelled value: it is all of it, the function that is called, or
the package of a selection. -/
inductive ReadsPart (rest' : List Word) : ValueExpr → List Word → ValueExpr → List Word → Prop where
  | whole {spec : ValueExpr} {words : List Word} : ReadsPart rest' spec words spec rest'
  | callee {callee : ValueExpr} {args : List ValueExpr} {words : List Word}
      (hargs : ∀ arg ∈ args, ValueSpelling arg.words arg) :
      ReadsPart rest' (.call callee args) words callee
        (parenWords (commaWords (args.map ValueExpr.words)) ++ rest')
  | package {spec value : ValueExpr} {package dot name : String} {tail : List Word} :
      ReadsPart rest' spec [(.identifier, package)] value
        ((.dot, dot) :: (.identifier, name) :: tail)

/-- What an expression in a spelled value is followed by. -/
theorem ReadsPart.stops (hpart : ReadsPart rest' spec words value rest)
    (hrest' : Stops valueStops rest') : Stops ([.openParen, .dot] ++ valueStops) rest := by
  cases hpart with
  | whole => exact hrest'.mono (List.subset_append_right _ _)
  | callee _ => exact stops_cons.mpr (by decide)
  | package => exact stops_cons.mpr (by simp)

theorem ReadsPart.whole_of_stops (hpart : ReadsPart rest' spec words value rest)
    (hrest : Stops valueStops rest) : value = spec ∧ rest = rest' := by
  cases hpart with
  | whole => exact ⟨rfl, rfl⟩
  | callee _ => exact absurd hrest (not_stops (by decide))
  | package => exact absurd hrest (not_stops (by decide))

theorem token_part {token : Token} {text : String} (htoken : token ∈ valueTokens)
    (hspec : ValueSpelling specWords spec) (hwords : (token, text) :: rest = specWords ++ rest') :
    ReadsPart rest' spec [(token, text)] (tokenValue {} token text) rest := by
  have hsigns : ∀ sign ∈ signTokens, sign ∉ valueTokens := by decide
  cases hspec with
  | operand hoperand =>
      cases hoperand with
      | word =>
          cases hwords
          exact .whole
      | select =>
          cases hwords
          exact .package
  | number mark text hsign hnumber =>
      cases hwords
      exact absurd htoken (hsigns _ hsign)
  | call hcallee hargs =>
      cases hcallee with
      | word =>
          cases hwords
          exact .callee hargs
      | select =>
          cases hwords
          exact .package

theorem select_part {package dot name : String} (hspec : ValueSpelling specWords spec)
    (hwords : (.identifier, package) :: (.dot, dot) :: (.identifier, name) :: rest =
      specWords ++ rest') (hrest' : Stops valueStops rest') :
    ReadsPart rest' spec [(.identifier, package), (.dot, dot), (.identifier, name)]
      (.selector package name) rest := by
  cases hspec with
  | operand hoperand =>
      cases hoperand with
      | word =>
          cases hwords
          exact absurd hrest' (not_stops (by decide))
      | select =>
          cases hwords
          exact .whole
  | number mark text hsign hnumber =>
      cases hwords
      exact absurd hsign (by decide)
  | call hcallee hargs =>
      cases hcallee with
      | word => simp [parenWords] at hwords
      | select =>
          simp only [List.cons_append, List.nil_append, List.cons.injEq, Prod.mk.injEq,
            true_and] at hwords
          obtain ⟨rfl, -, rfl, rfl⟩ := hwords
          exact .callee hargs

/-- The expressions with fewer words are parts of the spelled values that they start. -/
def PartsBelow (size : Nat) : Prop :=
  ∀ words value specWords spec rest rest', words.length < size → ValuePhrase words value →
    ValueSpelling specWords spec → words ++ rest = specWords ++ rest' →
    Stops valueStops rest' → ReadsPart rest' spec words value rest

/-- Only a dot or a parenthesis goes on with an expression inside of a spelled value. -/
theorem PartsBelow.stops (hbelow : PartsBelow size) (hsize : words.length < size)
    (hvalue : ValuePhrase words value) (hspec : ValueSpelling specWords spec)
    (hwords : words ++ rest = specWords ++ rest') (hrest' : Stops valueStops rest') :
    Stops ([.openParen, .dot] ++ valueStops) rest :=
  (hbelow _ _ _ _ _ _ hsize hvalue hspec hwords hrest').stops hrest'

theorem literalTokens_operand : ∀ token ∈ literalTokens, token ∈ operandTokens := by decide

theorem numberTokens_literal : ∀ number ∈ numberTokens, number ∈ literalTokens := by decide

theorem tokenValue_literal {token : Token} {text : String} (htoken : token ∈ literalTokens) :
    tokenValue {} token text = .literal text := by
  simp only [literalTokens, List.mem_cons, List.not_mem_nil, or_false] at htoken
  rcases htoken with rfl | rfl | rfl | rfl | rfl | rfl <;> rfl

theorem OperandSpelling.ne_sign {sign : Token} {mark : String}
    (hoperand : OperandSpelling specWords spec) (hsign : sign ∈ signTokens) :
    (sign, mark) :: words ≠ specWords ++ rest := by
  have hsigns : ∀ sign ∈ signTokens, sign ∉ operandTokens := by decide
  cases hoperand with
  | word text htoken =>
      intro hwords
      cases hwords
      exact hsigns _ hsign htoken
  | select =>
      intro hwords
      simp only [List.cons_append, List.cons.injEq, Prod.mk.injEq] at hwords
      exact absurd (hwords.1.1 ▸ hsign) (by decide)

/-- A sign is part of the number after it. -/
theorem signed_part {sign : Token} {mark : String} {operand : ValueExpr}
    (hbelow : PartsBelow size) (hsize : words.length < size) (hsign : sign ∈ signTokens)
    (hoperand : ValuePhrase words operand)
    (hnumber : ∀ number ∈ numberTokens, ∀ text, words ≠ [(number, text)])
    (hspec : ValueSpelling specWords spec)
    (hwords : (sign, mark) :: (words ++ rest) = specWords ++ rest')
    (hrest' : Stops valueStops rest') : False := by
  cases hspec with
  | operand hspec => exact hspec.ne_sign hsign hwords
  | @number sign' number mark' text hsign' hnumber' =>
      have hafter := (List.cons.inj hwords).2
      have hliteral := numberTokens_literal number hnumber'
      have hpart := hbelow _ _ _ _ _ _ hsize hoperand
        (.operand (.word text (literalTokens_operand number hliteral))) hafter hrest'
      rw [tokenValue_literal hliteral] at hpart
      cases hpart with
      | whole => exact hnumber number hnumber' text (List.append_cancel_right hafter)
      | package =>
          cases hafter
          exact absurd hnumber' (by decide)
  | call hcallee _ => exact hcallee.ne_sign hsign (hwords.trans (List.append_assoc _ _ _))

theorem number_part {sign number : Token} {mark text : String} (hsign : sign ∈ signTokens)
    (hspec : ValueSpelling specWords spec)
    (hwords : (sign, mark) :: (number, text) :: rest = specWords ++ rest') :
    ReadsPart rest' spec [(sign, mark), (number, text)] (.literal (mark ++ text)) rest := by
  cases hspec with
  | operand hspec => exact (hspec.ne_sign hsign hwords).elim
  | number =>
      cases hwords
      exact .whole
  | call hcallee _ =>
      exact (hcallee.ne_sign hsign (hwords.trans (List.append_assoc _ _ _))).elim

/-! ## First words -/

/-- No expression starts with a word that stops one. -/
theorem ValuePhrase.start (hvalue : ValuePhrase words value) :
    ∃ word more, words = word :: more ∧ word.1 ∉ valueStops := by
  have htokens : ∀ token ∈ valueTokens ++ signTokens ++ typeStarts, token ∉ valueStops := by decide
  induction hsize : words.length using Nat.strongRecOn generalizing words value with
  | _ size ih =>
      subst hsize
      have hfirst {operand after : List Word} {value : ValueExpr}
          (hoperand : ValuePhrase operand value) (hsome : after ≠ []) :
          operand ++ after = words → ∃ word more, words = word :: more ∧ word.1 ∉ valueStops := by
        rintro rfl
        have hless := List.length_pos_iff.mpr hsome
        obtain ⟨word, more, rfl, hword⟩ := ih _ (by simp; omega) hoperand rfl
        exact ⟨word, more ++ after, rfl, hword⟩
      cases hvalue with
      | token text htoken => exact ⟨_, _, rfl, htokens _ (by simp [htoken])⟩
      | compound hcompound =>
          cases hcompound with
          | number mark text hsign _ => exact ⟨_, _, rfl, htokens _ (by simp [hsign])⟩
          | signed hsign _ _ => exact ⟨_, _, rfl, htokens _ (by simp [hsign])⟩
          | select => exact ⟨_, _, rfl, htokens _ (by simp [valueTokens, operandTokens])⟩
          | selectOther hoperand _ => exact hfirst hoperand (by simp) rfl
          | call hcallee hargs => cases hargs; exact hfirst hcallee (by simp) rfl
          | conversion htype _ _ =>
              obtain ⟨word, more, rfl, hword⟩ := htype.start
              exact ⟨word, _, rfl, htokens _ (by simp [hword])⟩
          | goesOn hoperand _ => exact hfirst hoperand (by simp) rfl
          | assertion hoperand => exact hfirst hoperand (by simp) rfl
          | typeGoesOn htype _ =>
              obtain ⟨word, more, rfl, hword⟩ := htype.start
              exact ⟨word, _, rfl, htokens _ (by simp [hword])⟩
          | other hword =>
              exact ⟨_, _, rfl, fun hstop => hword (List.mem_append_right _ hstop)⟩

theorem ArgPhrase.start (harg : ArgPhrase words value) :
    ∃ word more, words = word :: more ∧ word.1 ∉ valueStops := by
  cases harg with
  | plain hvalue => exact hvalue.start
  | variadic hoperand =>
      obtain ⟨word, more, rfl, hword⟩ := hoperand.start
      exact ⟨word, _, rfl, hword⟩

/-! ## Calls -/

theorem argStops_subset : [Token.comma, .closeParen] ⊆ valueStops := by decide

theorem readsBack_arg {arg : ValueExpr} (hbelow : PartsBelow size)
    (harg : ValueSpelling arg.words arg) :
    ReadsBack [.comma, .closeParen] (fun words value => words.length < size ∧ ArgPhrase words value)
      ValueExpr.words Eq arg := by
  rintro words value rest rest' ⟨hsize, hphrase⟩ hwords hrest hrest'
  have hstops := hrest'.mono argStops_subset
  cases hphrase with
  | plain hvalue =>
      exact (hbelow _ _ _ _ _ _ hsize hvalue harg hwords hstops).whole_of_stops
        (hrest.mono argStops_subset)
  | variadic hoperand =>
      rw [List.append_assoc] at hwords
      have hafter := hbelow.stops (by simp at hsize; omega) hoperand harg hwords hstops
      exact absurd hafter (not_stops (by decide))

/-- The arguments of a spelled call are read back. -/
theorem args_unique {args specs : List ValueExpr} (hbelow : PartsBelow size)
    (hsize : words.length ≤ size) (hspecs : ∀ spec ∈ specs, ValueSpelling spec.words spec)
    (hargs : ArgsPhrase words args)
    (hwords : words ++ rest =
      parenWords (commaWords (specs.map ValueExpr.words)) ++ rest') :
    args = specs ∧ rest = rest' := by
  cases hargs with
  | @list opening closing items body args hbody hargs =>
      simp only [parenWords, List.cons_append, List.append_assoc, List.nil_append,
        List.cons.injEq] at hwords
      have hitems : List.Forall₂ (fun item arg => item.length < size ∧ ArgPhrase item arg)
          items args :=
        (List.forall₂_and_left _ _).mpr ⟨fun item hitem => by
          have hle := hbody.length_le item hitem
          simp at hsize
          omega, hargs⟩
      obtain ⟨hsame, hafter⟩ := commas_unique
        (fun spec hspec => readsBack_arg hbelow (hspecs spec hspec))
        (fun words arg harg => by
          obtain ⟨word, more, hwords, hword⟩ := harg.2.start
          exact ⟨word, more, hwords, fun hclose => hword (argStops_subset (by simp_all))⟩)
        (fun spec hspec => starts_apart (hspecs spec hspec).start (by decide))
        (by decide) hbody hitems hwords.2 (by simp) (by simp)
      rw [List.forall₂_eq_eq_eq] at hsame
      exact ⟨hsame, (List.cons.inj hafter).2⟩

theorem call_part {more : List Word} {callee : ValueExpr} {args : List ValueExpr}
    (hbelow : PartsBelow size) (hsize : (words ++ more).length ≤ size)
    (hcallee : ValuePhrase words callee) (hargs : ArgsPhrase more args)
    (hspec : ValueSpelling specWords spec) (hwords : words ++ (more ++ rest) = specWords ++ rest')
    (hrest' : Stops valueStops rest') :
    ReadsPart rest' spec (words ++ more) (.call callee args) rest := by
  have hlength := hargs.length
  rw [List.length_append] at hsize
  have hpart := hbelow _ _ _ _ _ _ (by omega) hcallee hspec hwords hrest'
  generalize hafter : more ++ rest = after at hpart
  cases hpart with
  | whole =>
      subst hafter
      cases hargs
      exact absurd hrest' (not_stops (by decide))
  | callee hspecs =>
      obtain ⟨rfl, rfl⟩ := args_unique hbelow (by omega) hspecs hargs hafter
      exact .whole
  | package =>
      cases hargs
      simp at hafter

/-- A type at the start of a spelled value is a value itself. -/
theorem TypePhrase.as_value {type : TypeExpr} (htype : TypePhrase words type)
    (hbelow : PartsBelow size) (hsize : words.length < size)
    (hspec : ValueSpelling specWords spec) (hwords : words ++ rest = specWords ++ rest')
    (hrest' : Stops valueStops rest') : ValuePhrase words (Parts.conversionCallee type) := by
  have hcommon : ∀ token ∈ typeStarts, token ∈ valueStarts → token = .identifier := by decide
  have hbracket : Token.openBracket ∉ [Token.openParen, .dot] ++ valueStops := by decide
  obtain ⟨⟨token, name⟩, more, rfl, hstart⟩ := htype.start
  obtain ⟨first, last, rfl, hfirst⟩ := hspec.start
  obtain rfl : (token, name) = first := (List.cons.inj hwords).1
  obtain rfl : token = .identifier := hcommon token hstart hfirst
  rcases htype.of_identifier with
    ⟨rfl, rfl⟩ | ⟨dot, last, rfl, rfl⟩ | ⟨opening, word, more, rfl, -⟩ |
      ⟨dot, last, opening, more, rfl⟩
  · exact .token name (by decide)
  · exact .compound (.select name last)
  · have hname : ValuePhrase [(.identifier, name)] (.ident name) := .token name (by decide)
    exact absurd (hbelow.stops (by simp at hsize ⊢; omega) hname hspec hwords hrest')
      (not_stops hbracket)
  · have hselect : ValuePhrase [(.identifier, name), (.dot, dot), (.identifier, last)]
        (.selector name last) := .compound (.select name last)
    exact absurd (hbelow.stops (by simp at hsize ⊢; omega) hselect hspec hwords hrest')
      (not_stops hbracket)

/-! ## All values -/

theorem compound_part (hbelow : PartsBelow size) (hsize : words.length ≤ size)
    (hcompound : CompoundPhrase words value) (hspec : ValueSpelling specWords spec)
    (hwords : words ++ rest = specWords ++ rest') (hrest' : Stops valueStops rest') :
    ReadsPart rest' spec words value rest := by
  cases hcompound with
  | number mark text hsign hnumber => exact number_part hsign hspec hwords
  | signed hsign hoperand hnumber =>
      have hless := Nat.lt_of_succ_le hsize
      exact (signed_part hbelow hless hsign hoperand hnumber hspec hwords hrest').elim
  | select => exact select_part hspec hwords hrest'
  | selectOther hoperand hname =>
      rw [List.append_assoc] at hwords
      generalize hafter : _ ++ rest = after at hwords
      cases hbelow _ _ _ _ _ _ (by simp at hsize; omega) hoperand hspec hwords hrest' with
      | whole =>
          subst hafter
          exact absurd hrest' (not_stops (by decide))
      | callee _ => simp [parenWords] at hafter
      | package => exact (hname _ rfl).elim
  | call hcallee hargs =>
      rw [List.append_assoc] at hwords
      exact call_part hbelow hsize hcallee hargs hspec hwords hrest'
  | conversion htype hoperand hbody =>
      rw [List.append_assoc] at hwords
      have hcallee := htype.as_value hbelow (by simp at hsize; omega) hspec hwords hrest'
      exact call_part hbelow hsize hcallee (.list hbody (.cons (.plain hoperand) .nil)) hspec hwords
        hrest'
  | goesOn hoperand hword =>
      have hapart : ∀ token ∈ operatorTokens, token ∉ [Token.openParen, .dot] ++ valueStops := by
        decide
      rw [List.append_assoc] at hwords
      have hstops := hbelow.stops (by simp at hsize; omega) hoperand hspec hwords hrest'
      exact absurd (stops_cons.mp hstops) (hapart _ hword)
  | assertion hoperand =>
      rw [List.append_assoc] at hwords
      generalize hafter : _ ++ rest = after at hwords
      cases hbelow _ _ _ _ _ _ (by simp at hsize; omega) hoperand hspec hwords hrest' with
      | whole =>
          subst hafter
          exact absurd hrest' (not_stops (by decide))
      | callee _ => simp [parenWords] at hafter
      | package => simp at hafter
  | typeGoesOn htype hword =>
      rw [List.append_assoc] at hwords
      have hcallee := htype.as_value hbelow (by simp at hsize; omega) hspec hwords hrest'
      have hstops := hbelow.stops (by simp at hsize; omega) hcallee hspec hwords hrest'
      rcases hword with hword | hword <;>
        exact absurd (hword ▸ stops_cons.mp hstops) (by decide)
  | other hword =>
      obtain ⟨first, more, rfl, hfirst⟩ := hspec.start
      cases (List.cons.inj hwords).1
      exact (hword (List.mem_append_left _ hfirst)).elim

theorem partsBelow (size : Nat) : PartsBelow size := by
  induction size with
  | zero => exact fun _ _ _ _ _ _ hsize => absurd hsize (Nat.not_lt_zero _)
  | succ size ih =>
      intro words value specWords spec rest rest' hsize hvalue hspec hwords hrest'
      cases hvalue with
      | token text htoken => exact token_part htoken hspec hwords
      | compound hcompound =>
          exact compound_part ih (Nat.le_of_lt_succ hsize) hcompound hspec hwords hrest'

/-- A spelled value is read back. -/
theorem readsBack_value (hspec : ValueSpelling spec.words spec) :
    ReadsBack valueStops ValuePhrase ValueExpr.words Eq spec :=
  fun words _ _ _ hvalue hwords hrest hrest' =>
    (partsBelow _ _ _ _ _ _ _ (Nat.lt_succ_self words.length) hvalue hspec hwords
      hrest').whole_of_stops hrest

/-! ## Supported values -/

theorem wordsAll_eq (values : List ValueExpr) :
    ValueExpr.wordsAll values = values.map ValueExpr.words := by
  induction values with
  | nil => rfl
  | cons value values ih => simp [ValueExpr.wordsAll, ih]

theorem arePlain_iff {values : List ValueExpr} :
    ValueExpr.arePlain values = true ↔ ∀ value ∈ values, value.isPlain = true := by
  induction values with
  | nil => simp [ValueExpr.arePlain]
  | cons value values ih => simp [ValueExpr.arePlain, ih]

theorem operandSpelling_name (name : String) :
    OperandSpelling [(ValueExpr.nameToken name, name)] (.ident name) := by
  have htoken : ValueExpr.nameToken name ∈ operandTokens ∧
      tokenValue {} (ValueExpr.nameToken name) name = .ident name := by
    unfold ValueExpr.nameToken
    split_ifs <;> exact ⟨by decide, rfl⟩
  exact htoken.2 ▸ .word name htoken.1

theorem operandSpelling_callee {callee : ValueExpr} (hcallee : callee.isCallee = true) :
    OperandSpelling callee.words callee := by
  cases callee with
  | ident name => exact operandSpelling_name name
  | selector package name =>
      rw [ValueExpr.isCallee, beq_iff_eq] at hcallee
      rw [ValueExpr.words, hcallee]
      exact .select package name
  | _ => simp [ValueExpr.isCallee] at hcallee

/-- A sign and the rest of a literal are the literal. -/
theorem signOf?_some {text number : String} {sign : Word}
    (hsign : ValueExpr.signOf? text = some (sign, number)) :
    sign.1 ∈ signTokens ∧ sign.2 ++ number = text := by
  unfold ValueExpr.signOf? at hsign
  split at hsign
  case h_3 => cases hsign
  all_goals
    rename_i rest htext
    cases hsign
    exact ⟨by decide, String.toList_inj.mp (by simp [htext])⟩

theorem literalSpelling {text : String} (hplain : ValueExpr.isPlainLiteral text = true) :
    ValueSpelling (ValueExpr.literalWords text) (.literal text) := by
  unfold ValueExpr.isPlainLiteral at hplain
  unfold ValueExpr.literalWords
  cases hsign : ValueExpr.signOf? text with
  | none =>
      have htoken : literalToken text ∈ literalTokens := by simpa [hsign] using hplain
      exact tokenValue_literal htoken ▸ .operand (.word text (literalTokens_operand _ htoken))
  | some signed =>
      obtain ⟨⟨sign, mark⟩, number⟩ := signed
      obtain ⟨hin, rfl⟩ := signOf?_some hsign
      have hnumber : literalToken number ∈ numberTokens := by
        simpa [hsign, numberTokens] using hplain
      exact .number mark number hin hnumber

/-- A supported value is spelled as one. -/
theorem valueSpelling (value : ValueExpr) (hplain : value.isPlain = true) :
    ValueSpelling value.words value := by
  induction hsize : sizeOf value using Nat.strongRecOn generalizing value with
  | _ size ih =>
      subst hsize
      cases value with
      | literal text => exact literalSpelling hplain
      | ident name => exact .operand (operandSpelling_name name)
      | iota => exact .operand (.word "iota" (by decide))
      | selector package name =>
          have hcallee : (ValueExpr.selector package name).isCallee = true := hplain
          exact .operand (operandSpelling_callee hcallee)
      | call callee args =>
          rw [ValueExpr.isPlain, Bool.and_eq_true, arePlain_iff] at hplain
          rw [ValueExpr.words, wordsAll_eq]
          refine .call (operandSpelling_callee hplain.1) fun arg harg => ?_
          have hless := List.sizeOf_lt_of_mem harg
          exact ih _ (by simp; omega) arg (hplain.2 arg harg) rfl
      | compound children => simp [ValueExpr.isPlain] at hplain

end GoAtlas.Source
