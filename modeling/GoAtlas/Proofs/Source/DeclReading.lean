import GoAtlas.Proofs.Source.SignatureReading
import GoAtlas.Proofs.Source.ValueReading
import GoAtlas.Proofs.Source.DeclMeaning

/-!
# Spelled declarations are read back
-/

namespace GoAtlas.Source

variable {rest rest' words : List Word}

/-! ## Specifications -/

/-- What may come after a specification. -/
def specStops : List Token := terminators ++ [.closeParen]

theorem specStops_subset : specStops ⊆ typeStops := by decide

/-- The first words of specifications. -/
def specStarts : List Token := [.identifier, .dot, .underscore] ++ stringTokens

/-- A type is declared in any words that are read back as it. -/
theorem readsBack_spelledType {decl : TypeDecl} {spelled : List Word}
    (hspells : Spells spelled decl.expr)
    (hstart : Begins spelled ∧ ∃ word more, spelled = word :: more ∧
      word.1 ∈ .openBracket :: plainStarts) :
    ReadsBack specStops TypeSpecPhrase (fun decl => (.identifier, decl.name) :: spelled)
      (fun decls decl => decls = [.type decl]) decl := by
  intro words decls rest rest' hphrase hwords hrest hrest'
  obtain ⟨hbegins, first, more, hfirst, hstart⟩ := hstart
  obtain ⟨name, expr⟩ := decl
  simp only [List.cons_append] at hwords
  cases hphrase with
  | plain htype =>
      simp only [List.cons_append, List.cons.injEq, Prod.mk.injEq, true_and] at hwords
      obtain ⟨rfl, hafter⟩ := hwords
      obtain ⟨rfl, rfl⟩ := hspells _ _ _ _ htype hafter
        (hrest.mono specStops_subset) (hrest'.mono specStops_subset)
      exact ⟨rfl, rfl⟩
  | same htype =>
      have hassign : ∀ token ∈ Token.openBracket :: plainStarts, token ≠ .assign := by decide
      simp only [hfirst, List.cons_append, List.cons.injEq] at hwords
      exact absurd (congrArg Prod.fst hwords.2.1).symm (hassign _ hstart)
  | generic =>
      obtain ⟨word, last, hwords', hword⟩ := hbegins
      simp only [hwords', List.cons_append, List.cons.injEq] at hwords
      obtain ⟨-, rfl, hafter⟩ := hwords
      obtain hin | ⟨-, _, _, rfl⟩ := hword
      · simp [plainStarts] at hin
      · simp at hafter

theorem readsBack_typeSpec {decl : TypeDecl} (hplain : decl.expr.isPlain = true) :
    ReadsBack specStops TypeSpecPhrase TypeDecl.words (fun decls decl => decls = [.type decl])
      decl :=
  readsBack_spelledType (reads_type decl.expr hplain) (words_start hplain)

theorem readsBack_importSpec {decl : ImportDecl} (hplain : decl.isPlain = true) :
    ReadsBack specStops ImportSpecPhrase ImportDecl.words (fun imports decl => imports = [decl])
      decl := by
  intro words imports rest rest' hphrase hwords hrest hrest'
  obtain ⟨path, localName⟩ := decl
  have hpath : literalToken path ∈ stringTokens := by
    simpa [ImportDecl.isPlain, stringTokens] using hplain
  have hname : ∀ name, ImportDecl.nameToken name ∉ stringTokens := by
    intro name
    unfold ImportDecl.nameToken
    split_ifs <;> decide
  have hmarks : ∀ mark ∈ [Token.dot, .underscore, .identifier], mark ∉ stringTokens := by decide
  cases localName with
  | none =>
      simp only [ImportDecl.words, literalWord, Option.toList_none, List.map_nil, List.nil_append,
        List.cons_append] at hwords
      cases hphrase with
      | plain _ =>
          cases hwords
          exact ⟨rfl, rfl⟩
      | named hmark _ =>
          cases hwords
          exact absurd hpath (hmarks _ hmark)
  | some name =>
      simp only [ImportDecl.words, literalWord, Option.toList_some, List.map_cons, List.map_nil,
        List.nil_append, List.cons_append] at hwords
      cases hphrase with
      | plain htoken =>
          cases hwords
          exact absurd htoken (hname name)
      | named _ _ =>
          cases hwords
          exact ⟨rfl, rfl⟩

/-- Spelled values are read back. -/
theorem values_unique {values specs : List ValueExpr}
    (hplain : ∀ spec ∈ specs, spec.isPlain = true) (hvalues : ValuesPhrase words values)
    (hwords : words ++ rest = commaWords (ValueExpr.wordsAll specs) ++ rest')
    (hrest : Stops specStops rest) (hrest' : Stops specStops rest') :
    values = specs ∧ rest = rest' := by
  have hsubset : Token.comma :: specStops ⊆ valueStops := by decide
  have hapart : ∀ token ∈ valueStarts, token ∉ Token.comma :: specStops := by decide
  rw [wordsAll_eq] at hwords
  cases hvalues with
  | list hbody hvalues =>
      obtain ⟨hsame, hafter⟩ := commas_unique
        (fun spec hspec words value rest rest' hvalue hwords hrest hrest' =>
          readsBack_value (valueSpelling spec (hplain spec hspec)) words value rest rest' hvalue
            hwords (hrest.mono hsubset) (hrest'.mono hsubset))
        (fun words value hvalue => by
          obtain ⟨word, more, hwords, hword⟩ := ValuePhrase.start hvalue
          exact ⟨word, more, hwords, fun hin => hword (hsubset (List.mem_cons_of_mem _ hin))⟩)
        (fun spec hspec => starts_apart (valueSpelling spec (hplain spec hspec)).start hapart)
        (by decide) hbody hvalues hwords hrest hrest'
      rw [List.forall₂_eq_eq_eq] at hsame
      exact ⟨hsame, hafter⟩

/-- How a constant goes on after its name. -/
theorem initWords_cases (decl : ConstDecl) :
    (decl.type = none ∧ decl.values = [] ∧ decl.initWords = []) ∨
      (decl.type = none ∧
        decl.initWords = (.assign, "=") :: commaWords (ValueExpr.wordsAll decl.values)) ∨
      ∃ type, decl.type = some type ∧ decl.initWords =
        type.words ++ (.assign, "=") :: commaWords (ValueExpr.wordsAll decl.values) := by
  obtain ⟨name, type, values⟩ := decl
  cases type with
  | some type => exact Or.inr (Or.inr ⟨type, rfl, rfl⟩)
  | none =>
      cases values with
      | nil => exact Or.inl ⟨rfl, rfl, rfl⟩
      | cons value values => exact Or.inr (Or.inl ⟨rfl, rfl⟩)

/-- The first words of what comes after the name of a constant. -/
def initStops : List Token := .assign :: .openBracket :: plainStarts ++ specStops

theorem stops_init {decl : ConstDecl} (hplain : ∀ type ∈ decl.type, type.isPlain = true)
    (hrest : Stops specStops rest) : Stops initStops (decl.initWords ++ rest) := by
  have htypes : Token.openBracket :: plainStarts ⊆ initStops := by decide
  have hspecs : specStops ⊆ initStops := by decide
  rcases initWords_cases decl with ⟨-, -, hwords⟩ | ⟨-, hwords⟩ | ⟨type, htype, hwords⟩
  · rw [hwords]
    exact hrest.mono hspecs
  · rw [hwords]
    exact stops_cons.mpr (by decide)
  · obtain ⟨-, word, more, hfirst, hword⟩ := words_start (hplain type htype)
    rw [hwords, hfirst]
    exact stops_cons.mpr (htypes hword)

/-- What comes after the name of a spelled constant is read back. -/
theorem init_unique {decl : ConstDecl} {type : Option TypeExpr} {values : List ValueExpr}
    (hplain : ∀ type ∈ decl.type, type.isPlain = true)
    (hvalues : ∀ value ∈ decl.values, value.isPlain = true) (hinit : InitPhrase type values words)
    (hwords : words ++ rest = decl.initWords ++ rest') (hrest : Stops specStops rest)
    (hrest' : Stops specStops rest') : type = decl.type ∧ values = decl.values ∧ rest = rest' := by
  have hassign : Token.assign ∉ specStops := by decide
  have htype' : Token.assign ∈ typeStops := by decide
  have hstarts : ∀ token ∈ typeStarts, token ≠ .assign ∧ token ∉ specStops := by decide
  have hplainStarts : ∀ token ∈ Token.openBracket :: plainStarts,
      token ≠ .assign ∧ token ∉ specStops := by decide
  rcases initWords_cases decl with ⟨hnone, hempty, hspell⟩ | ⟨hnone, hspell⟩ | ⟨spec, hsome, hspell⟩
  · rw [hspell, List.nil_append] at hwords
    subst hwords
    rw [hnone, hempty]
    cases hinit with
    | none => exact ⟨rfl, rfl, rfl⟩
    | values _ => exact absurd hrest' (not_stops hassign)
    | typed htype _ =>
        obtain ⟨first, more, rfl, hstart⟩ := htype.start
        exact absurd (stops_cons.mp hrest') (hstarts _ hstart).2
  · rw [hspell] at hwords
    rw [hnone]
    cases hinit with
    | none =>
        rw [List.nil_append] at hwords
        subst hwords
        exact absurd hrest (not_stops hassign)
    | values hphrase =>
        obtain ⟨hsame, hafter⟩ :=
          values_unique hvalues hphrase (List.cons.inj hwords).2 hrest hrest'
        exact ⟨rfl, hsame, hafter⟩
    | typed htype _ =>
        obtain ⟨first, more, rfl, hstart⟩ := htype.start
        cases (List.cons.inj hwords).1
        exact absurd rfl (hstarts _ hstart).1
  · have hspec := hplain spec hsome
    obtain ⟨-, first, more, hfirst, hstart⟩ := words_start hspec
    rw [hspell, List.append_assoc, List.cons_append] at hwords
    rw [hsome]
    cases hinit with
    | none =>
        rw [hfirst, List.nil_append] at hwords
        subst hwords
        exact absurd (stops_cons.mp hrest) (hplainStarts _ hstart).2
    | values _ =>
        rw [hfirst] at hwords
        exact absurd (congrArg Prod.fst (List.cons.inj hwords).1).symm (hplainStarts _ hstart).1
    | typed htype hphrase =>
        rw [List.append_assoc, List.cons_append] at hwords
        obtain ⟨rfl, hafter⟩ := reads_type spec hspec _ _ _ _ htype hwords
          (stops_cons.mpr htype') (stops_cons.mpr htype')
        obtain ⟨hsame, hafter⟩ :=
          values_unique hvalues hphrase (List.cons.inj hafter).2 hrest hrest'
        exact ⟨rfl, hsame, hafter⟩

theorem readsBack_constSpec {decl : ConstDecl} (hplain : decl.isPlain = true) :
    ReadsBack specStops ConstSpecPhrase ConstDecl.words (fun decls decl => decls = [.const decl])
      decl := by
  intro words decls rest rest' hphrase hwords hrest hrest'
  obtain ⟨htypes, hvalues⟩ : (∀ type ∈ decl.type, type.isPlain = true) ∧
      ∀ value ∈ decl.values, value.isPlain = true := by
    simpa [ConstDecl.isPlain, Option.all_eq_true, arePlain_iff] using hplain
  have hstops := stops_init htypes hrest'
  cases hphrase with
  | @spec name names tail words type values hnames hinit =>
      simp only [ConstDecl.words, List.cons_append, List.append_assoc, List.cons.injEq,
        Prod.mk.injEq, true_and] at hwords
      obtain ⟨rfl, hwords⟩ := hwords
      cases hnames with
      | nil =>
          obtain ⟨rfl, rfl, rfl⟩ := init_unique htypes hvalues hinit hwords hrest hrest'
          exact ⟨rfl, rfl⟩
      | cons htail =>
          rw [← hwords] at hstops
          exact absurd hstops (not_stops (by decide))

/-! ## Groups -/

section Groups

variable {α β : Type} {phrase : List Word → List α → Prop} {spell : β → List Word} {inject : β → α}

theorem flatten_singles {entries : List (List α)} {specs : List β}
    (hsame : List.Forall₂ (fun entries spec => entries = [inject spec]) entries specs) :
    entries.flatten = specs.map inject := by
  induction hsame with
  | nil => rfl
  | cons hentry _ ih => simp [hentry, ih]

/-- A spelled group is read back, if its specifications are. -/
theorem readsBack_group {group : SpecGroup β}
    (hunique : ∀ spec ∈ group.specs,
      ReadsBack specStops phrase spell (fun entries spec => entries = [inject spec]) spec)
    (hphrase : ∀ words entries, phrase words entries →
      ∃ word more, words = word :: more ∧ word.1 ∈ specStarts)
    (hspell : ∀ spec ∈ group.specs, ∃ word more, spell spec = word :: more ∧ word.1 ∈ specStarts) :
    ReadsBack terminators (GroupPhrase phrase) (SpecGroup.words spell)
      (fun entries group => entries = group.specs.map inject) group := by
  intro words entries rest rest' hgroup hwords hrest hrest'
  have hparen : Token.openParen ∉ specStarts := by decide
  have hsubset : terminators ⊆ specStops := by decide
  cases group with
  | single spec =>
      obtain ⟨first, more, hfirst, hstart⟩ := hspell spec (List.mem_singleton_self _)
      cases hgroup with
      | single hspec =>
          exact hunique spec (List.mem_singleton_self _) _ _ _ _ hspec hwords
            (hrest.mono hsubset) (hrest'.mono hsubset)
      | block hbody _ =>
          rw [SpecGroup.words, hfirst] at hwords
          cases (List.cons.inj hwords).1
          exact absurd hstart hparen
  | block specs =>
      rw [SpecGroup.words, parenWords] at hwords
      cases hgroup with
      | single hspec =>
          obtain ⟨first, more, rfl, hstart⟩ := hphrase _ _ hspec
          cases (List.cons.inj hwords).1
          exact absurd hstart hparen
      | block hbody hspecs =>
          simp only [List.cons_append, List.append_assoc, List.nil_append,
            List.cons.injEq] at hwords
          obtain ⟨hsame, hafter⟩ := lines_unique hunique
            (fun words entries hspec => starts_apart (hphrase words entries hspec) (by decide))
            (fun spec hspec => starts_apart (hspell spec hspec) (by decide))
            (by decide) hbody hspecs hwords.2 (by simp) (by simp)
          exact ⟨flatten_singles hsame, (List.cons.inj hafter).2⟩

end Groups

end GoAtlas.Source
