import GoAtlas.Proofs.Source.Derivation
import GoAtlas.Proofs.Text.Splitting

/-!
# Cutting a text into tokens

What the tokens of a text are is settled without its grammar: each one is as long as it can be,
blanks before it do not count, and a line break counts only after a token that can end a
statement (`tokensOf`).  Names are names in any place, so a keyword is no name.

The function cuts one token after the other, and so do the lemmas: a blank is skipped
(`tokensFrom_blank`), a word ends before the first character that cannot continue it
(`tokensFrom_word`), and a mark is the longest that fits (`tokensFrom_mark`).
-/

namespace GoAtlas.Source

variable {steps : Nat} {ends : Bool} {text rest word : List Char} {c : Char} {name : String}

/-! ## Tokens in any place -/

/-- The words that have a meaning of their own, but are names as well. -/
def predeclared : List Token :=
  [.newWord, .makeWord, .nilWord, .trueWord, .falseWord, .iotaWord, .underscore]

/-- The tokens of Go, line breaks aside. -/
def goTokens : TokenSet :=
  .ofList (Token.all.filter fun token => !(Token.lineEnd :: .nul :: predeclared).contains token)

/-- The tokens that can come next, where `ends` tells whether a line break counts. -/
def expectedAfter (ends : Bool) : TokenSet :=
  if ends then goTokens.union (.single .lineEnd) else goTokens

/-- The tokens that a statement can end with. -/
def lastTokens : List Token :=
  [.identifier, .rawString, .quotedString, .integer, .float, .imaginary, .rune, .breakWord,
    .continueWord, .fallthroughWord, .returnWord, .increment, .decrement, .closeParen,
    .closeBracket, .closeBrace]

/-- The tokens at the start of a text, at most `steps` of them. -/
def tokensFrom : (steps : Nat) → (ends : Bool) → List Char → List Word
  | 0, _, _ => []
  | steps + 1, ends, text =>
      let lexeme := Lexeme.next (expectedAfter ends) text
      if lexeme.token = .endOfText then []
      else if lexeme.token = .comment then tokensFrom steps ends lexeme.after
      else (lexeme.token, String.ofList lexeme.text) ::
        tokensFrom steps (lastTokens.contains lexeme.token) lexeme.after

/-- The tokens of a text. -/
def tokensOf (text : List Char) : List Word := tokensFrom (text.length + 1) false text

/-- The keywords of Go. -/
def keywords : List String :=
  (Token.words.filter fun entry => goTokens.contains entry.2).map (·.1)

/-- Whether a text is a name in Go. -/
def isIdentifier (name : String) : Bool :=
  name.toList.head?.any isLetter && name.toList.all isWordChar && !keywords.contains name

/-! ## Characters -/

theorem isBlank_of_isLetter (hletter : isLetter c = true) : isBlank c = false := by
  simp only [isLetter, Bool.or_eq_true, Bool.and_eq_true, decide_eq_true_eq, beq_iff_eq,
    Bool.not_eq_true', Char.le_def, UInt32.le_iff_toNat_le] at hletter
  rcases hletter with ((hlower | hupper) | rfl) | ⟨-, hblank⟩
  · change 97 ≤ c.toNat ∧ c.toNat ≤ 122 at hlower
    simp [isBlank]
    omega
  · change 65 ≤ c.toNat ∧ c.toNat ≤ 90 at hupper
    simp [isBlank]
    omega
  · decide
  · exact hblank

theorem isDigit_of_isLetter (hletter : isLetter c = true) : isDigit c = false := by
  have hnot : ¬ (48 ≤ c.toNat ∧ c.toNat ≤ 57) := by
    simp only [isLetter, Bool.or_eq_true, Bool.and_eq_true, decide_eq_true_eq, beq_iff_eq,
      Bool.not_eq_true', Char.le_def, UInt32.le_iff_toNat_le] at hletter
    rcases hletter with ((hlower | hupper) | rfl) | ⟨hlarge, -⟩
    · change 97 ≤ c.toNat ∧ c.toNat ≤ 122 at hlower
      omega
    · change 65 ≤ c.toNat ∧ c.toNat ≤ 90 at hupper
      omega
    · decide
    · omega
  simp only [isDigit, Bool.and_eq_false_iff, decide_eq_false_iff_not, Char.le_def,
    UInt32.le_iff_toNat_le]
  change ¬ 48 ≤ c.toNat ∨ ¬ c.toNat ≤ 57
  omega

theorem ne_of_isLetter {d : Char} (hletter : isLetter c = true) (hd : isLetter d = false) :
    c ≠ d := by
  rintro rfl
  rw [hletter] at hd
  cases hd

/-! ## Blanks -/

/-- How many blanks come before a token tells nothing about it. -/
theorem nextAfter_lead (expected : TokenSet) (lead other : Nat) (text : List Char) :
    Lexeme.nextAfter expected lead text =
      { Lexeme.nextAfter expected other text with
        lead := (Lexeme.nextAfter expected lead text).lead } := by
  induction text generalizing lead other with
  | nil => rfl
  | cons c rest ih =>
      simp only [Lexeme.nextAfter]
      split
      · rfl
      · split
        · exact ih (lead + 1) (other + 1)
        · simp only [Lexeme.here]
          split
          · rfl
          · split <;> rfl

/-- A blank before a token does not count. -/
theorem tokensFrom_blank : tokensFrom steps ends (' ' :: text) = tokensFrom steps ends text := by
  cases steps with
  | zero => rfl
  | succ steps =>
      have hnext : Lexeme.next (expectedAfter ends) (' ' :: text) =
          Lexeme.nextAfter (expectedAfter ends) 1 text := by
        cases ends <;> rfl
      rw [tokensFrom, tokensFrom, hnext, Lexeme.next, nextAfter_lead (expectedAfter ends) 1 0]

/-- After the last token there is nothing. -/
theorem tokensFrom_nil : tokensFrom steps ends [] = [] := by
  cases steps with
  | zero => rfl
  | succ steps => cases ends <;> rfl

/-- A line break counts after a token that a statement can end with. -/
theorem tokensFrom_lineEnd :
    tokensFrom (steps + 1) true ('\n' :: text) =
      (.lineEnd, "\n") :: tokensFrom steps false text :=
  rfl

/-! ## Words -/

/-- Whether a text goes on with something else than a word does. -/
def endsWord (rest : List Char) : Bool := rest.head?.all fun c => !isWordChar c

/-- A word is a name, or one of the words with a meaning of their own. -/
theorem ofWord_cases (expected : TokenSet) (word : List Char) :
    Token.ofWord expected word = .identifier ∨
      ∃ entry ∈ Token.words, entry.1.toList = word ∧ expected.contains entry.2 = true ∧
        Token.ofWord expected word = entry.2 := by
  unfold Token.ofWord
  split
  case h_1 text token hfind =>
    split
    case isTrue hcontains =>
      have htext := List.find?_some hfind
      rw [beq_iff_eq] at htext
      exact .inr ⟨_, List.mem_of_find?_eq_some hfind, htext, hcontains, rfl⟩
    case isFalse => exact .inl rfl
  case h_2 => exact .inl rfl

theorem ofWord_of_not_keyword (hname : name ∉ keywords) (ends : Bool) :
    Token.ofWord (expectedAfter ends) name.toList = .identifier := by
  -- Where a line break counts, the same words are expected.
  have hsame : ∀ entry ∈ Token.words, (expectedAfter ends).contains entry.2 = true →
      goTokens.contains entry.2 = true := by
    cases ends <;> decide
  rcases ofWord_cases (expectedAfter ends) name.toList with
    hidentifier | ⟨entry, hentry, htext, hcontains, -⟩
  · exact hidentifier
  · have hkeyword : entry.1 ∈ keywords :=
      List.mem_map.mpr ⟨entry, List.mem_filter.mpr ⟨hentry, hsame entry hentry hcontains⟩, rfl⟩
    rw [String.toList_inj.mp htext] at hkeyword
    exact absurd hkeyword hname

theorem head_of_endsWord (hrest : endsWord rest = true) :
    ∀ c ∈ rest.head?, isWordChar c = false := by
  intro c hc
  rw [endsWord, Option.mem_def.mp hc] at hrest
  simpa using hrest

/-- A word is taken off whole, and nothing with it. -/
theorem takeWhile_word (hword : word.all isWordChar = true) (hrest : endsWord rest = true) :
    (word ++ rest).takeWhile isWordChar = word :=
  takeWhile_append (List.all_eq_true.mp hword) (head_of_endsWord hrest)

theorem dropWhile_word (hword : word.all isWordChar = true) (hrest : endsWord rest = true) :
    (word ++ rest).dropWhile isWordChar = rest :=
  dropWhile_append (List.all_eq_true.mp hword) (head_of_endsWord hrest)

/-- A word ends where no character can continue it. -/
theorem next_word (expected : TokenSet) (hletter : isLetter c = true)
    (hword : word.all isWordChar = true) (hrest : endsWord rest = true) :
    Lexeme.next expected (c :: (word ++ rest)) =
      { token := .ofWord expected (c :: word), lead := 0, text := c :: word, after := rest } := by
  have hline : c ≠ '\n' := ne_of_isLetter hletter (by decide)
  have hfirst : isWordChar c = true := by simp [isWordChar, hletter]
  have hwordTake : (c :: (word ++ rest)).takeWhile isWordChar = c :: word := by
    rw [List.takeWhile_cons_of_pos hfirst, takeWhile_word hword hrest]
  have hwordDrop : (c :: (word ++ rest)).dropWhile isWordChar = rest := by
    rw [List.dropWhile_cons_of_pos hfirst, dropWhile_word hword hrest]
  simp only [Lexeme.next, Lexeme.nextAfter, Lexeme.here, hline, isBlank_of_isLetter hletter,
    hletter, hwordTake, hwordDrop, decide_false, Bool.false_and, Bool.false_eq_true, if_false,
    if_true]

theorem tokensFrom_word (hletter : isLetter c = true) (hword : word.all isWordChar = true)
    (hrest : endsWord rest = true) :
    tokensFrom (steps + 1) ends (c :: (word ++ rest)) =
      (Token.ofWord (expectedAfter ends) (c :: word), String.ofList (c :: word)) ::
        tokensFrom steps
          (lastTokens.contains (Token.ofWord (expectedAfter ends) (c :: word))) rest := by
  have htokens : ∀ entry ∈ Token.words, entry.2 ≠ .endOfText ∧ entry.2 ≠ .comment := by decide
  have htoken : Token.ofWord (expectedAfter ends) (c :: word) ≠ .endOfText ∧
      Token.ofWord (expectedAfter ends) (c :: word) ≠ .comment := by
    rcases ofWord_cases (expectedAfter ends) (c :: word) with
      hidentifier | ⟨entry, hentry, -, -, hword⟩
    · rw [hidentifier]
      decide
    · rw [hword]
      exact htokens entry hentry
  rw [tokensFrom, next_word _ hletter hword hrest]
  simp only [htoken.1, htoken.2, if_false]

/-- A keyword is a token by itself. -/
theorem tokensFrom_keyword (keyword : String) (token : Token)
    (hkeyword : (keyword, token) ∈
      [("package", Token.packageWord), ("type", .typeWord), ("map", .mapWord),
        ("chan", .chanWord)])
    (hrest : endsWord rest = true) :
    tokensFrom (steps + 1) ends (keyword.toList ++ rest) =
      (token, keyword) :: tokensFrom steps false rest := by
  obtain ⟨c, word, hchars, hletter, hword, htoken⟩ : ∃ c word, keyword.toList = c :: word ∧
      isLetter c = true ∧ word.all isWordChar = true ∧
        Token.ofWord (expectedAfter ends) (c :: word) = token := by
    simp only [List.mem_cons, Prod.mk.injEq, List.not_mem_nil, or_false] at hkeyword
    rcases hkeyword with ⟨rfl, rfl⟩ | ⟨rfl, rfl⟩ | ⟨rfl, rfl⟩ | ⟨rfl, rfl⟩ <;>
      exact ⟨_, _, rfl, rfl, rfl, by cases ends <;> rfl⟩
  have hlast : lastTokens.contains token = false := by
    simp only [List.mem_cons, Prod.mk.injEq, List.not_mem_nil, or_false] at hkeyword
    rcases hkeyword with ⟨rfl, rfl⟩ | ⟨rfl, rfl⟩ | ⟨rfl, rfl⟩ | ⟨rfl, rfl⟩ <;> rfl
  rw [hchars, List.cons_append, tokensFrom_word hletter hword hrest, htoken, hlast, ← hchars,
    String.ofList_toList]

/-- A name starts with a letter. -/
theorem exists_letter (hname : isIdentifier name = true) :
    ∃ c word, name.toList = c :: word ∧ isLetter c = true := by
  simp only [isIdentifier, Bool.and_eq_true] at hname
  cases hchars : name.toList with
  | nil => simp [hchars] at hname
  | cons c word => exact ⟨c, word, rfl, by simpa [hchars] using hname.1.1⟩

/-- A name is a token by itself. -/
theorem tokensFrom_identifier (hname : isIdentifier name = true) (hrest : endsWord rest = true) :
    tokensFrom (steps + 1) ends (name.toList ++ rest) =
      (.identifier, name) :: tokensFrom steps true rest := by
  simp only [isIdentifier, Bool.and_eq_true, Bool.not_eq_true', List.contains_eq_mem,
    decide_eq_false_iff_not] at hname
  obtain ⟨⟨hfirst, hall⟩, hkeyword⟩ := hname
  have htoken := ofWord_of_not_keyword hkeyword ends
  cases hchars : name.toList with
  | nil => simp [hchars] at hfirst
  | cons c word =>
      rw [hchars] at hfirst hall htoken
      have hletter : isLetter c = true := by simpa using hfirst
      have hword : word.all isWordChar = true := by
        rw [List.all_cons, Bool.and_eq_true] at hall
        exact hall.2
      rw [List.cons_append, tokensFrom_word hletter hword hrest, htoken, ← hchars,
        String.ofList_toList]
      rfl

/-! ## Marks -/

/-- The longer one of two tokens, the first if they are as long. -/
def longer : Option (Token × Cut) → Option (Token × Cut) → Option (Token × Cut)
  | best, none => best
  | none, some found => some found
  | some known, some found =>
      if known.2.taken < found.2.taken then some found else some known

/-- The token that a form gives at the start of a text, if it can come next. -/
def tokenAt (expected : TokenSet) (text : List Char) (form : Token × Scan) :
    Option (Token × Cut) :=
  if form.1 == .comment || expected.contains form.1 then
    (form.2 ⟨0, text⟩).map (form.1, ·)
  else none

theorem longest_eq (expected : TokenSet) (text : List Char) :
    Lexeme.longest expected text =
      ((Lexeme.markForms ++ Lexeme.forms).map (tokenAt expected text)).foldl longer none := by
  rw [List.foldl_map]
  unfold Lexeme.longest
  congr
  funext best form
  obtain ⟨token, scan⟩ := form
  simp only [tokenAt]
  split
  · cases scan ⟨0, text⟩ <;> cases best <;> rfl
  · cases best <;> rfl

/-- Forms that do not fit can be left out. -/
theorem longest_without (expected : TokenSet) (left : List Token) (fails : List (Token × Scan))
    (hforms : (Lexeme.markForms ++ Lexeme.forms).filter (left.contains ·.1) = fails)
    (hfail : ∀ form ∈ fails, form.2 ⟨0, text⟩ = none) :
    Lexeme.longest expected text =
      (((Lexeme.markForms ++ Lexeme.forms).filter (!left.contains ·.1)).map
        (tokenAt expected text)).foldl longer none := by
  rw [longest_eq]
  have hleft : ∀ form ∈ Lexeme.markForms ++ Lexeme.forms, left.contains form.1 = true →
      form.2 ⟨0, text⟩ = none := by
    intro form hform hin
    exact hfail form (hforms ▸ List.mem_filter.mpr ⟨hform, hin⟩)
  clear hforms
  generalize (none : Option (Token × Cut)) = best
  generalize Lexeme.markForms ++ Lexeme.forms = forms at hleft ⊢
  induction forms generalizing best with
  | nil => rfl
  | cons form forms ih =>
      rw [List.forall_mem_cons] at hleft
      cases hin : left.contains form.1 with
      | true =>
          have hnone : tokenAt expected text form = none := by
            simp [tokenAt, hleft.1 hin]
          have hbest : longer best none = best := by cases best <;> rfl
          rw [List.filter_cons_of_neg (by simpa using hin), List.map_cons, List.foldl_cons, hnone,
            hbest]
          exact ih best hleft.2
      | false =>
          rw [List.filter_cons_of_pos (by simpa using hin), List.map_cons, List.map_cons,
            List.foldl_cons, List.foldl_cons]
          exact ih _ hleft.2

/-- A star is a star, if nothing is assigned. -/
theorem longest_star (ends : Bool) (hassign : c ≠ '=') :
    Lexeme.longest (expectedAfter ends) ('*' :: c :: rest) = some (.star, ⟨1, c :: rest⟩) := by
  rw [longest_without (expectedAfter ends) [.starAssign]
    [(.starAssign, Scan.exactly "*=".toList)] rfl]
  · cases ends <;> rfl
  · simp [Scan.exactly, hassign.symm]

/-- A dot before a name is a dot. -/
theorem longest_dot (ends : Bool) (hletter : isLetter c = true) :
    Lexeme.longest (expectedAfter ends) ('.' :: c :: rest) = some (.dot, ⟨1, c :: rest⟩) := by
  have hnoDigit : isDigit '.' = false := rfl
  have hdigit := isDigit_of_isLetter hletter
  have hdot : c ≠ '.' := ne_of_isLetter hletter (by decide)
  rw [longest_without (expectedAfter ends) [.ellipsis, .float, .imaginary]
    [(.ellipsis, Scan.exactly "...".toList), (.float, Scan.float),
      (.imaginary, Scan.imaginary)] rfl]
  · cases ends <;> rfl
  · simp [Scan.exactly, hdot.symm, Scan.float, Scan.imaginary, Scan.floatForms, Scan.integerForms,
      Scan.longest, Scan.seq, Scan.further, Scan.char, Scan.one, Scan.decimals, Scan.digits,
      hnoDigit, hdigit]

/-- A mark that is the longest token is cut off. -/
theorem tokensFrom_mark {token : Token} {taken : Nat} (hletter : isLetter c = false)
    (hblank : isBlank c = false)
    (hlongest : Lexeme.longest (expectedAfter ends) (c :: text) = some (token, ⟨taken, rest⟩))
    (htoken : token ≠ .endOfText ∧ token ≠ .comment) :
    tokensFrom (steps + 1) ends (c :: text) =
      (token, String.ofList ((c :: text).take taken)) ::
        tokensFrom steps (lastTokens.contains token) rest := by
  have hline : c ≠ '\n' := by
    rintro rfl
    exact absurd hblank (by decide)
  have hnext : Lexeme.next (expectedAfter ends) (c :: text) =
      { token, lead := 0, text := (c :: text).take taken, after := rest } := by
    simp only [Lexeme.next, Lexeme.nextAfter, Lexeme.here, hline, hblank, hletter, hlongest,
      decide_false, Bool.false_and, Bool.false_eq_true, if_false]
  rw [tokensFrom, hnext]
  simp only [htoken.1, htoken.2, if_false]

theorem tokensFrom_openBracket :
    tokensFrom (steps + 1) ends ('[' :: rest) =
      (.openBracket, "[") :: tokensFrom steps false rest := by
  have hlongest : Lexeme.longest (expectedAfter ends) ('[' :: rest) =
      some (.openBracket, ⟨1, rest⟩) := by
    cases ends <;> rfl
  exact tokensFrom_mark rfl rfl hlongest (by decide)

theorem tokensFrom_closeBracket :
    tokensFrom (steps + 1) ends (']' :: rest) =
      (.closeBracket, "]") :: tokensFrom steps true rest := by
  have hlongest : Lexeme.longest (expectedAfter ends) (']' :: rest) =
      some (.closeBracket, ⟨1, rest⟩) := by
    cases ends <;> rfl
  exact tokensFrom_mark rfl rfl hlongest (by decide)

theorem tokensFrom_arrow :
    tokensFrom (steps + 1) ends ('<' :: '-' :: rest) =
      (.arrow, "<-") :: tokensFrom steps false rest := by
  have hlongest : Lexeme.longest (expectedAfter ends) ('<' :: '-' :: rest) =
      some (.arrow, ⟨2, rest⟩) := by
    cases ends <;> rfl
  exact tokensFrom_mark rfl rfl hlongest (by decide)

theorem tokensFrom_star (hassign : c ≠ '=') :
    tokensFrom (steps + 1) ends ('*' :: c :: rest) =
      (.star, "*") :: tokensFrom steps false (c :: rest) :=
  tokensFrom_mark rfl rfl (longest_star ends hassign) (by decide)

theorem tokensFrom_dot (hletter : isLetter c = true) :
    tokensFrom (steps + 1) ends ('.' :: c :: rest) =
      (.dot, ".") :: tokensFrom steps false (c :: rest) :=
  tokensFrom_mark rfl rfl (longest_dot ends hletter) (by decide)

end GoAtlas.Source
