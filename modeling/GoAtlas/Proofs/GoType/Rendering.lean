import GoAtlas.GoType.Resolve
import GoAtlas.Proofs.Source.FileReading
import GoAtlas.Proofs.Source.Tokens

/-!
# Rendered types are read back

The Go text of a type, declared in a file of its own, is read back as the type.  Between the two
lie the tokens of the text: they are the ones that the type is made of (`tokens_declaration`), and
they are read back (`spells_words`).  What is said of the parser is just this: the text has a
tree, the tree is derived by the grammar, and its words are the tokens of the text.

The element of a channel is rendered without parentheses, and then an arrow between two channels
can belong to either of them.  A type is read back if no arrow stands so (`arrowsApart`); for the
other types there is one with the same tokens (`tokens_shared`), so no reading gets both right.
-/

namespace GoAtlas.GoType

open Source

/-! ## Tokens and expressions -/

/-- The tokens that a type is made of. -/
def words : GoType → List Word
  | .primitive name => [(.identifier, name)]
  | .selector package name => [(.identifier, package), (.dot, "."), (.identifier, name)]
  | .array elem => (.openBracket, "[") :: (.closeBracket, "]") :: words elem
  | .map key value =>
      (.mapWord, "map") :: (.openBracket, "[") ::
        (words key ++ (.closeBracket, "]") :: words value)
  | .pointer target => (.star, "*") :: words target
  | .channel elem dir => TypeExpr.directionWords dir ++ words elem
  | _ => []

/-- The expression that denotes a type. -/
def expr : GoType → TypeExpr
  | .primitive name => .ident name
  | .selector package name => .selector package name
  | .array elem => .array (expr elem)
  | .map key value => .map (expr key) (expr value)
  | .pointer target => .pointer (expr target)
  | .channel elem dir => .chan dir (expr elem)
  | _ => .unsupported ""

/-- Whether a type is built from names by arrays, maps, pointers and channels. -/
def isBasic : GoType → Bool
  | .primitive name => isIdentifier name
  | .selector package name => isIdentifier package && isIdentifier name
  | .array elem => isBasic elem
  | .map key value => isBasic key && isBasic value
  | .pointer target => isBasic target
  | .channel elem _ => isBasic elem
  | _ => false

/-- Whether a type is a channel of a direction. -/
def isChannel (dir : ChanDir) : GoType → Bool
  | .channel _ other => other == dir
  | _ => false

/-- Whether each arrow in a type can belong to one channel only. -/
def arrowsApart : GoType → Bool
  | .array elem => arrowsApart elem
  | .map key value => arrowsApart key && arrowsApart value
  | .pointer target => arrowsApart target
  | .channel elem .both => !elem.isChannel .recv && arrowsApart elem
  | .channel elem .send => !elem.isChannel .both && arrowsApart elem
  | .channel elem .recv => arrowsApart elem
  | _ => true

/-- The text of a file that declares a type. -/
def declaration (type : GoType) : String := "package p\ntype X " ++ type.render ++ "\n"

variable {type : GoType} {steps : Nat} {ends : Bool} {text : List Char} {spelled : List Word}

/-- The expression of a type denotes the type. -/
theorem resolve_expr (hbasic : type.isBasic = true) (imports : ImportTable) :
    (type.expr.resolve imports).1 = .ok type := by
  suffices hresolve : ∃ marked, type.expr.resolve imports = (.ok type, marked) by
    obtain ⟨marked, hresolve⟩ := hresolve
    rw [hresolve]
  induction type using isBasic.induct generalizing imports with
  | case1 name => exact ⟨imports, rfl⟩
  | case2 package name => exact ⟨imports.need package, rfl⟩
  | case3 elem ih =>
      obtain ⟨marked, helem⟩ := ih hbasic imports
      exact ⟨marked, by rw [expr, TypeExpr.resolve, helem, TypeExpr.Resolved.map]⟩
  | case4 key value ihKey ihValue =>
      rw [isBasic, Bool.and_eq_true] at hbasic
      obtain ⟨between, hkey⟩ := ihKey hbasic.1 imports
      obtain ⟨marked, hvalue⟩ := ihValue hbasic.2 between
      refine ⟨marked, ?_⟩
      rw [expr, TypeExpr.resolve, hkey, TypeExpr.Resolved.andThen, hvalue, TypeExpr.Resolved.map]
  | case5 target ih =>
      obtain ⟨marked, htarget⟩ := ih hbasic imports
      exact ⟨marked, by rw [expr, TypeExpr.resolve, htarget, TypeExpr.Resolved.map]⟩
  | case6 elem dir ih =>
      obtain ⟨marked, helem⟩ := ih hbasic imports
      exact ⟨marked, by rw [expr, TypeExpr.resolve, helem, TypeExpr.Resolved.map]⟩
  | case7 type => simp_all [isBasic]

/-! ## The tokens of the text -/

/-- The text of a type does not start with an equals sign. -/
theorem chars_start (hbasic : type.isBasic = true) :
    ∃ c more, type.chars = c :: more ∧ c ≠ '=' := by
  cases type with
  | primitive name =>
      obtain ⟨c, word, hchars, hletter⟩ := exists_letter hbasic
      exact ⟨c, word, hchars, ne_of_isLetter hletter (by decide)⟩
  | selector package name =>
      rw [isBasic, Bool.and_eq_true] at hbasic
      obtain ⟨c, word, hchars, hletter⟩ := exists_letter hbasic.1
      refine ⟨c, word ++ ['.'] ++ name.toList, ?_, ne_of_isLetter hletter (by decide)⟩
      show package.toList ++ ['.'] ++ name.toList = _
      rw [hchars, List.cons_append, List.cons_append]
  | array elem => exact ⟨'[', _, rfl, by decide⟩
  | map key value => exact ⟨'m', _, rfl, by decide⟩
  | pointer target => exact ⟨'*', _, rfl, by decide⟩
  | channel elem dir => cases dir <;> exact ⟨_, _, rfl, by decide⟩
  | _ => simp [isBasic] at hbasic

theorem length_words_le (hbasic : type.isBasic = true) :
    type.words.length ≤ type.chars.length := by
  have hname : ∀ name, isIdentifier name = true → 0 < name.toList.length := by
    intro name hname
    obtain ⟨c, word, hchars, -⟩ := exists_letter hname
    simp [hchars]
  induction type using isBasic.induct with
  | case1 name => exact hname name hbasic
  | case2 package name =>
      rw [isBasic, Bool.and_eq_true] at hbasic
      have hpackage := hname package hbasic.1
      have hlast := hname name hbasic.2
      show 3 ≤ (package.toList ++ ['.'] ++ name.toList).length
      simp only [List.length_append, List.length_singleton]
      omega
  | case3 elem ih =>
      exact Nat.succ_le_succ (Nat.succ_le_succ (ih hbasic))
  | case4 key value ihKey ihValue =>
      rw [isBasic, Bool.and_eq_true] at hbasic
      have hkey := ihKey hbasic.1
      have hvalue := ihValue hbasic.2
      have hmap : "map[".toList.length = 4 := rfl
      show (key.words ++ (.closeBracket, "]") :: value.words).length + 2 ≤
        ("map[".toList ++ key.chars ++ [']'] ++ value.chars).length
      simp only [List.length_append, List.length_cons, List.length_nil, hmap]
      omega
  | case5 target ih => exact Nat.succ_le_succ (ih hbasic)
  | case6 elem dir ih =>
      have helem := ih hbasic
      have hmark : (TypeExpr.directionWords dir).length ≤ dir.mark.length := by
        cases dir <;> decide
      show (TypeExpr.directionWords dir ++ elem.words).length ≤ (dir.mark ++ elem.chars).length
      simp only [List.length_append]
      omega
  | case7 type => simp_all [isBasic]

/-- The tokens of the text of a type are those that it is made of. -/
theorem tokensFrom_chars (hbasic : type.isBasic = true) (htext : endsWord text = true) :
    tokensFrom (steps + type.words.length) ends (type.chars ++ text) =
      type.words ++ tokensFrom steps true text := by
  induction type using isBasic.induct generalizing steps ends text with
  | case1 name => exact tokensFrom_identifier hbasic htext
  | case2 package name =>
      rw [isBasic, Bool.and_eq_true] at hbasic
      obtain ⟨c, word, hstart, hletter⟩ := exists_letter hbasic.2
      have hname : tokensFrom (steps + 1) false (name.toList ++ text) =
          (.identifier, name) :: tokensFrom steps true text :=
        tokensFrom_identifier hbasic.2 htext
      show tokensFrom (steps + 1 + 1 + 1) ends
        (package.toList ++ ['.'] ++ name.toList ++ text) = _
      rw [List.append_assoc, List.append_assoc, List.singleton_append,
        tokensFrom_identifier hbasic.1 rfl]
      rw [hstart, List.cons_append] at hname ⊢
      rw [tokensFrom_dot hletter, hname]
      rfl
  | case3 elem ih =>
      show tokensFrom (steps + elem.words.length + 1 + 1) ends
        ('[' :: ']' :: (elem.chars ++ text)) = _
      rw [tokensFrom_openBracket, tokensFrom_closeBracket, ih hbasic htext]
      rfl
  | case4 key value ihKey ihValue =>
      rw [isBasic, Bool.and_eq_true] at hbasic
      have hsteps : steps + (map key value).words.length =
          steps + value.words.length + 1 + key.words.length + 1 + 1 := by
        simp only [words, List.length_cons, List.length_append]
        omega
      have hchars : (map key value).chars ++ text =
          "map".toList ++ ('[' :: (key.chars ++ (']' :: (value.chars ++ text)))) := by
        show "map[".toList ++ key.chars ++ [']'] ++ value.chars ++ text = _
        simp
      rw [hsteps, hchars, tokensFrom_keyword "map" .mapWord (by decide) rfl, tokensFrom_openBracket,
        ihKey hbasic.1 rfl, tokensFrom_closeBracket, ihValue hbasic.2 htext]
      simp [words]
  | case5 target ih =>
      rw [isBasic] at hbasic
      obtain ⟨c, more, hchars, hassign⟩ := chars_start hbasic
      have htarget : tokensFrom (steps + target.words.length) false (target.chars ++ text) =
          target.words ++ tokensFrom steps true text := ih hbasic htext
      rw [hchars, List.cons_append] at htarget
      show tokensFrom (steps + target.words.length + 1) ends ('*' :: (target.chars ++ text)) = _
      rw [hchars, List.cons_append, tokensFrom_star hassign, htarget]
      rfl
  | case6 elem dir ih =>
      cases dir with
      | both =>
          show tokensFrom (steps + elem.words.length + 1) ends
            ("chan".toList ++ (' ' :: (elem.chars ++ text))) = _
          rw [tokensFrom_keyword "chan" .chanWord (by decide) rfl, tokensFrom_blank,
            ih hbasic htext]
          rfl
      | send =>
          show tokensFrom (steps + elem.words.length + 1 + 1) ends
            ("chan".toList ++ ('<' :: '-' :: ' ' :: (elem.chars ++ text))) = _
          rw [tokensFrom_keyword "chan" .chanWord (by decide) rfl, tokensFrom_arrow,
            tokensFrom_blank, ih hbasic htext]
          rfl
      | recv =>
          show tokensFrom (steps + elem.words.length + 1 + 1) ends
            ('<' :: '-' :: ("chan".toList ++ (' ' :: (elem.chars ++ text)))) = _
          rw [tokensFrom_arrow, tokensFrom_keyword "chan" .chanWord (by decide) rfl,
            tokensFrom_blank, ih hbasic htext]
          rfl
  | case7 type => simp_all [isBasic]

/-- The tokens of the text of a file that declares a type. -/
def declarationWords (type : GoType) : List Word :=
  lineWords [[(.packageWord, "package"), (.identifier, "p")],
    (.typeWord, "type") :: (.identifier, "X") :: type.words]

theorem tokens_declaration (hbasic : type.isBasic = true) :
    tokensOf type.declaration.toList = type.declarationWords := by
  have hchars : type.declaration.toList =
      "package".toList ++ (' ' :: ("p".toList ++ ('\n' :: ("type".toList ++ (' ' ::
        ("X".toList ++ (' ' :: (type.chars ++ ['\n'])))))))) := by
    have hfront : "package p\ntype X ".toList =
        "package".toList ++ ' ' :: ("p".toList ++ '\n' :: ("type".toList ++ ' ' ::
          ("X".toList ++ [' ']))) := by
      decide +kernel
    have hback : "\n".toList = ['\n'] := by decide +kernel
    unfold declaration
    simp only [render, String.toList_append, String.toList_ofList, hfront, hback,
      List.append_assoc, List.cons_append, List.nil_append]
  have hlength : type.declaration.toList.length = type.chars.length + 18 := by
    have hpackage : "package".toList.length = 7 := rfl
    have htype : "type".toList.length = 4 := rfl
    have hnames : "p".toList.length = 1 ∧ "X".toList.length = 1 := ⟨rfl, rfl⟩
    rw [hchars]
    simp only [List.length_append, List.length_cons, List.length_nil, hpackage, htype, hnames.1,
      hnames.2]
    omega
  -- A token has a character at least, so the bound on the steps is no bound.
  obtain ⟨extra, hsteps⟩ : ∃ extra, type.chars.length + 18 + 1 =
      extra + 1 + type.words.length + 1 + 1 + 1 + 1 + 1 := by
    have hle := length_words_le hbasic
    exact ⟨type.chars.length - type.words.length + 13, by omega⟩
  rw [tokensOf, hlength, hsteps, hchars, tokensFrom_keyword "package" .packageWord (by decide) rfl,
    tokensFrom_blank, tokensFrom_identifier (by decide) rfl, tokensFrom_lineEnd,
    tokensFrom_keyword "type" .typeWord (by decide) rfl, tokensFrom_blank,
    tokensFrom_identifier (by decide) rfl, tokensFrom_blank, tokensFrom_chars hbasic rfl,
    tokensFrom_lineEnd, tokensFrom_nil]
  rfl

/-- An arrow between two channels is a token of its own: the text does not tell which of them
it belongs to. -/
theorem tokens_shared {elem : GoType} (hbasic : elem.isBasic = true) :
    tokensOf (channel (channel elem .both) .send).declaration.toList =
      tokensOf (channel (channel elem .recv) .both).declaration.toList := by
  have hsend : (channel (channel elem .both) .send).isBasic = true := hbasic
  have hboth : (channel (channel elem .recv) .both).isBasic = true := hbasic
  rw [tokens_declaration hsend, tokens_declaration hboth]
  rfl

/-! ## Reading the tokens -/

theorem begins_words (hbasic : type.isBasic = true) :
    Begins type.words ∧ ∃ word more, type.words = word :: more ∧
      word.1 ∈ .openBracket :: plainStarts := by
  cases type with
  | channel elem dir => cases dir <;> simp [words, TypeExpr.directionWords, Begins, plainStarts]
  | primitive | selector | array | map | pointer => simp [words, Begins, plainStarts]
  | _ => simp [isBasic] at hbasic

/-- No type is read from an arrow and a type that is no channel of both directions. -/
theorem not_received (hbasic : type.isBasic = true) (hapart : type.arrowsApart = true)
    (hboth : type.isChannel .both = false) {words rest rest' : List Word} {expr : TypeExpr}
    (hphrase : TypePhrase words expr) :
    words ++ rest ≠ (.arrow, "<-") :: (type.words ++ rest') := by
  intro hwords
  induction type using isBasic.induct generalizing words rest rest' expr with
  | case6 elem dir ih =>
      cases hphrase with
      | recvChan hphrase =>
          simp only [List.cons_append, List.cons.injEq] at hwords
          cases dir with
          | both => cases hboth
          | send =>
              -- After the arrow stands `chan` with an arrow that is followed by the element.
              rw [arrowsApart, Bool.and_eq_true, Bool.not_eq_true'] at hapart
              simp only [GoType.words, TypeExpr.directionWords, List.cons_append, List.nil_append,
                List.cons.injEq] at hwords
              exact ih hbasic hapart.2 hapart.1 hphrase hwords.2.2
          | recv => simp [GoType.words, TypeExpr.directionWords] at hwords
      | _ => simp at hwords
  | case7 type => simp_all [isBasic]
  | _ =>
      cases hphrase with
      | recvChan _ => simp [GoType.words] at hwords
      | _ => simp at hwords

/-- The tokens of a type are read back as the expression that denotes it. -/
theorem spells_words (hbasic : type.isBasic = true) (hapart : type.arrowsApart = true) :
    Spells type.words type.expr := by
  induction type using isBasic.induct with
  | case1 name => exact spells_ident name
  | case2 package name => exact spells_selector package name
  | case3 elem ih => exact spells_array (ih hbasic hapart)
  | case4 key value ihKey ihValue =>
      rw [isBasic, Bool.and_eq_true] at hbasic
      rw [arrowsApart, Bool.and_eq_true] at hapart
      exact spells_map (ihKey hbasic.1 hapart.1) (ihValue hbasic.2 hapart.2)
  | case5 target ih => exact spells_pointer (ih hbasic hapart)
  | case6 elem dir ih =>
      rw [isBasic] at hbasic
      cases dir with
      | both =>
          rw [arrowsApart, Bool.and_eq_true, Bool.not_eq_true'] at hapart
          refine spells_both (ih hbasic hapart.2) ?_
          cases elem with
          | channel last dir =>
              cases dir with
              | both => exact ⟨_, _, rfl, by decide⟩
              | send => exact ⟨_, _, rfl, by decide⟩
              | recv => cases hapart.1
          | primitive | selector | array | map | pointer => exact ⟨_, _, rfl, by simp⟩
          | _ => simp [isBasic] at hbasic
      | send =>
          rw [arrowsApart, Bool.and_eq_true, Bool.not_eq_true'] at hapart
          exact spells_send (ih hbasic hapart.2) fun _ _ _ _ hphrase =>
            not_received hbasic hapart.2 hapart.1 hphrase
      | recv => exact spells_recv (ih hbasic hapart)
  | case7 type => simp_all [isBasic]

/-! ## Files -/

/-- The lines of the file that declares a type. -/
def declarationLines (type : GoType) : List (List Word × (GoFile → GoFile)) :=
  Source.lines { package := "p", items := [] } ++
    [((.typeWord, "type") :: (.identifier, "X") :: type.words,
      fun file => { file with decls := file.decls ++ [.type { name := "X", expr := type.expr }] })]

theorem readsLine_of_mem_declarationLines (hbasic : type.isBasic = true)
    (hapart : type.arrowsApart = true) : ∀ line ∈ type.declarationLines, ReadsLine line := by
  refine List.forall_mem_append.mpr ⟨readsLine_of_mem_lines rfl, ?_⟩
  intro line hline
  cases List.mem_singleton.mp hline
  refine ⟨?_, _, _, rfl, by decide⟩
  intro words effect rest rest' hphrase hwords hrest hrest'
  simp only [List.cons_append] at hwords
  cases hphrase with
  | types hphrase =>
      have hspec : ∀ spec ∈ (SpecGroup.single (TypeDecl.mk "X" type.expr)).specs,
          ReadsBack specStops TypeSpecPhrase (fun decl => (.identifier, decl.name) :: type.words)
            (fun decls decl => decls = [.type decl]) spec := by
        intro spec hspec
        cases List.mem_singleton.mp hspec
        exact readsBack_spelledType (spells_words hbasic hapart) (begins_words hbasic)
      obtain ⟨rfl, hafter⟩ := readsBack_group hspec (fun _ _ hphrase => hphrase.start)
        (fun _ _ => ⟨_, _, rfl, by simp [specStarts]⟩) _ _ _ _ hphrase
        (List.cons.inj hwords).2 hrest hrest'
      exact ⟨rfl, hafter⟩
  | other hword =>
      cases (List.cons.inj hwords).1
      exact absurd (by decide) hword
  | _ => simp at hwords

/-- A type whose arrows are apart is read back from its Go text, when the tree of the text is
derived by the grammar from the tokens of the text. -/
theorem read_declaration {tree : Tree} (hbasic : type.isBasic = true)
    (hapart : type.arrowsApart = true)
    (hparse : Tree.ofText? type.declaration.toList = some tree)
    (hreading : tree.isReading = true)
    (hwords : tree.words = tokensOf type.declaration.toList) :
    ∃ expr, GoFile.read type.declaration =
        { package := "p", imports := [], decls := [.type { name := "X", expr }] } ∧
      ∀ imports, (expr.resolve imports).1 = .ok type := by
  have hlineWords : tree.words = lineWords (type.declarationLines.map (·.1)) :=
    hwords.trans (tokens_declaration hbasic)
  refine ⟨type.expr, ?_, resolve_expr hbasic⟩
  calc GoFile.read type.declaration
    _ = (type.declarationLines.map (·.2)).foldl (fun file effect => effect file) {} :=
        GoFile.read_eq_foldl (readsLine_of_mem_declarationLines hbasic hapart) hparse hreading
          hlineWords
    _ = { package := "p", decls := [.type { name := "X", expr := type.expr }] } := rfl

/-- A channel to send channels to, where the second arrow cannot belong to the first channel. -/
def relays : GoType :=
  .channel (.channel (.map (.primitive "string")
    (.channel (.pointer (.selector "r" "C")) .both)) .send) .send

theorem read_declaration_relays :
    relays.isBasic = true ∧ relays.arrowsApart = true ∧
      ∃ expr, GoFile.read relays.declaration =
          { package := "p", imports := [], decls := [.type { name := "X", expr }] } ∧
        ∀ imports, (expr.resolve imports).1 = .ok relays := by
  have hbasic : relays.isBasic = true := by decide +kernel
  have hapart : relays.arrowsApart = true := by decide +kernel
  have hparsed : (Tree.ofText? relays.declaration.toList).any (fun tree =>
      tree.isReading && tree.words == tokensOf relays.declaration.toList) = true := by
    decide +kernel
  obtain ⟨tree, hparse, htree⟩ := (Option.any_eq_true _ _).mp hparsed
  rw [Bool.and_eq_true, beq_iff_eq] at htree
  exact ⟨hbasic, hapart, read_declaration hbasic hapart hparse htree.1 htree.2⟩

/-- A channel to send channels of both directions to. -/
def offers : GoType := .channel (.channel (.primitive "int") .both) .send

/-- The text of the type that a declaration is of, if there is one. -/
def textOf? : Decl → Option String
  | .type decl => (decl.expr.resolve {}).1.toOption.map render
  | _ => none

/-- The arrow of `chan<- chan int` is taken for the one of the inner channel. -/
theorem offers_not_read :
    offers.isBasic = true ∧
      ¬ ∃ expr, GoFile.read offers.declaration =
          { package := "p", imports := [], decls := [.type { name := "X", expr }] } ∧
        ∀ imports, (expr.resolve imports).1 = .ok offers := by
  refine ⟨by decide +kernel, ?_⟩
  rintro ⟨expr, hread, hresolve⟩
  have hother : (GoFile.read offers.declaration).decls.map textOf? =
      [some "chan <-chan int"] := by
    decide +kernel
  have htext : textOf? (.type { name := "X", expr }) = some offers.render := by
    rw [textOf?, hresolve]
    rfl
  rw [hread, List.map_singleton, htext] at hother
  exact absurd hother (by decide +kernel)

end GoAtlas.GoType
