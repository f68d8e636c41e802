import GoAtlas.Proofs.Source.Phrase

/-!
# Lists in derived trees

The grammar writes a list as its first item and a repetition of the others, with separators in
between.  In a tree these are nested in some way; as words and as parts they are a plain list.
-/

namespace GoAtlas.Source

open Grammar
open Forms (seq opt either token tokens phrase phrases role)

namespace Tree

variable {tree : Tree} {trees parts first last : List Tree} {rule : Rule} {extent : Extent}
  {step : Step} {lexeme : Lexeme} {size : Nat}

/-! ## Parts of trees -/

@[simp] theorem toParts_leaf {names : Bool} {role : Option Role} :
    toParts (leaf { role, names } lexeme) =
      [{ symbol := .token lexeme.token, label := { role, names }, text := String.ofList lexeme.text
         broken := false
         meaning := tokenMeaning { role, names } lexeme.token (String.ofList lexeme.text) }] :=
  rfl

theorem toParts_node {label : Label} (hvisible : rule.isHidden = false) :
    toParts (node label rule parts extent) =
      [{ symbol := .rule rule, label, text := phraseText (partsOf parts), broken := extent.broken
         meaning := phraseMeaning rule extent.broken (partsOf parts) }] := by
  simp [toParts, hvisible]

theorem partsOf_node {label : Label} (hvisible : rule.isHidden = false) :
    partsOf [node label rule parts extent] =
      [{ symbol := .rule rule, label, text := phraseText (partsOf parts), broken := extent.broken
         meaning := phraseMeaning rule extent.broken (partsOf parts) }] := by
  rw [partsOf_cons, toParts_node hvisible, partsOf_nil, List.append_nil]

@[simp] theorem counts_token {token : Token} {label : Label} {text : String} {broken : Bool}
    {meaning : Meaning} :
    Part.counts { symbol := .token token, label, text, broken, meaning } =
      Part.tokenCounts token :=
  rfl

@[simp] theorem counts_rule {label : Label} {text : String} {broken : Bool} {meaning : Meaning} :
    Part.counts { symbol := .rule rule, label, text, broken, meaning } = true :=
  rfl

@[simp] theorem role?_nil {role : Role} : Parts.role? [] role = none := rfl

@[simp] theorem role?_cons {part : Part} {parts : Parts} {role : Role} :
    Parts.role? (part :: parts) role =
      if part.label.role = some role then some part else Parts.role? parts role := by
  by_cases hrole : part.label.role = some role <;> simp [Parts.role?, hrole]

theorem role?_append_of_ne {front back : Parts} {role : Role}
    (hfront : ∀ part ∈ front, part.label.role ≠ some role) :
    Parts.role? (front ++ back) role = Parts.role? back role := by
  have hnone : front.find? (fun part => part.label.role == some role) = none := by
    simpa using hfront
  simp [Parts.role?, hnone]

theorem role?_append_of_ne_right {front back : Parts} {role : Role}
    (hback : ∀ part ∈ back, part.label.role ≠ some role) :
    Parts.role? (front ++ back) role = Parts.role? front role := by
  have hnone : back.find? (fun part => part.label.role == some role) = none := by
    simpa using hback
  simp [Parts.role?, hnone]

theorem signature_cons {part : Part} {parts : Parts} (hparams : part.label.role ≠ some .params)
    (hresult : part.label.role ≠ some .result) :
    Parts.signature (part :: parts) = Parts.signature parts := by
  simp [Parts.signature, hparams, hresult]

theorem signature_append {front back : Parts}
    (hback : ∀ part ∈ back, part.label.role ≠ some .params ∧ part.label.role ≠ some .result) :
    Parts.signature (front ++ back) = Parts.signature front := by
  rw [Parts.signature, Parts.signature,
    role?_append_of_ne_right fun part hpart => (hback part hpart).1,
    role?_append_of_ne_right fun part hpart => (hback part hpart).2]

@[simp] theorem names_nil : Parts.names [] = [] := rfl

@[simp] theorem names_cons {part : Part} {parts : Parts} :
    Parts.names (part :: parts) =
      if part.label.role = some .name then part.text :: Parts.names parts
      else Parts.names parts := by
  by_cases hrole : part.label.role = some .name <;> simp [Parts.names, Parts.withRole, hrole]

@[simp] theorem names_append {front back : Parts} :
    Parts.names (front ++ back) = Parts.names front ++ Parts.names back := by
  simp [Parts.names, Parts.withRole]

theorem names_eq_nil {parts : Parts} (hparts : ∀ part ∈ parts, part.label.role ≠ some .name) :
    Parts.names parts = [] := by
  simpa [Parts.names, Parts.withRole] using hparts

@[simp] theorem members_nil : Parts.members [] = [] := rfl

@[simp] theorem members_cons {part : Part} {parts : Parts} :
    Parts.members (part :: parts) = part.meaning.members ++ Parts.members parts := rfl

@[simp] theorem members_append {front back : Parts} :
    Parts.members (front ++ back) = Parts.members front ++ Parts.members back := by
  simp [Parts.members]

@[simp] theorem members_tokenMeaning {label : Label} {token : Token} {text : String} :
    (tokenMeaning label token text).members = [] := rfl

/-! ## Lists with separators -/

theorem haveForm_opt_cons {form : Forms} {forms : List Forms} :
    haveForm (seq (opt form :: forms)) trees ↔
      haveForm (seq (form :: forms)) trees ∨ haveForm (seq forms) trees := by
  simp only [haveForm_cons, haveForm_opt]
  constructor
  · rintro ⟨first, last, rfl, hfirst | rfl, hlast⟩
    · exact Or.inl ⟨first, last, rfl, hfirst, hlast⟩
    · exact Or.inr hlast
  · rintro (⟨first, last, rfl, hfirst, hlast⟩ | hlast)
    · exact ⟨first, last, rfl, Or.inl hfirst, hlast⟩
    · exact ⟨[], trees, rfl, Or.inr rfl, hlast⟩

/-- What some trees with separators between them contribute.  The separators themselves
contribute nothing. -/
structure Contribute (separators : List Token) (items : List Tree) (spreads : List Tree)
    (meanings : Parts) : Prop where
  params : paramsAmong spreads = items.flatMap fun item => paramsAmong item.spread
  parts : ∀ {β : Type} (f : Part → List β),
    (∀ lexeme, lexeme.token ∈ separators → (toParts (leaf {} lexeme)).flatMap f = []) →
      meanings.flatMap f = items.flatMap fun item => (toParts item).flatMap f

theorem haveForm_separator {separators : List Token} {trees : List Tree}
    (htrees : haveForm (tokens separators) trees ∨ trees = []) :
    SeparatedTail separators [] (wordsOf trees) ∧
      Contribute separators [] (spreadAll trees) (partsOf trees) := by
  rcases htrees with htrees | rfl
  · obtain ⟨lexeme, rfl, hlexeme⟩ := haveForm_tokens.mp htrees
    refine ⟨.last hlexeme, ?_, ?_⟩
    · simp
    · intro β f hf
      have hnone := hf lexeme hlexeme
      simpa using hnone
  · exact ⟨.nil, rfl, fun _ _ => rfl⟩

/-- The items of a repetition, each after a separator. -/
theorem separatedTail_of_groups {separators : List Token} {groups : List (List Tree)}
    (hgroups : ∀ group ∈ groups, haveForm (seq [tokens separators, [[step]]]) group)
    (htrees : haveForm (tokens separators) trees ∨ trees = []) :
    ∃ items, (∀ item ∈ items, derives step item = true) ∧
      SeparatedTail separators (items.map words) (groups.flatMap wordsOf ++ wordsOf trees) ∧
      Contribute separators items (groups.flatMap spreadAll ++ spreadAll trees)
        (groups.flatMap partsOf ++ partsOf trees) := by
  induction groups with
  | nil =>
      obtain ⟨htail, hcontribute⟩ := haveForm_separator htrees
      exact ⟨[], by simp, htail, hcontribute⟩
  | cons group groups ih =>
      obtain ⟨items, hitems, htail, hcontribute⟩ :=
        ih fun group hgroup => hgroups group (List.mem_cons_of_mem _ hgroup)
      have hgroup := hgroups group (List.mem_cons_self ..)
      simp only [haveForm_cons, haveForm_tokens, haveForm_step, haveForm_nil] at hgroup
      obtain ⟨_, _, rfl, ⟨lexeme, rfl, hlexeme⟩, _, _, rfl, ⟨item, rfl, hitem⟩, rfl⟩ := hgroup
      refine ⟨item :: items, ?_, ?_, ?_, ?_⟩
      · intro other hother
        rcases List.mem_cons.mp hother with rfl | hother
        · exact hitem
        · exact hitems other hother
      · have hcons : SeparatedTail separators (item.words :: items.map words)
            ((lexeme.token, String.ofList lexeme.text) ::
              (item.words ++ (groups.flatMap wordsOf ++ wordsOf trees))) :=
          .cons hlexeme htail
        simpa using hcons
      · have hparams := hcontribute.params
        simp only [paramsAmong_append] at hparams
        simp [hparams]
      · intro β f hf
        have hnone := hf lexeme hlexeme
        have hparts := hcontribute.parts f hf
        simp only [toParts_leaf, List.flatMap_cons, List.flatMap_nil, List.append_nil] at hnone
        simp [hnone, hparts]

/-- A list of items as the grammar has it: the first item, a repetition of items after
separators, and perhaps a separator. -/
theorem separated_of_list {separators : List Token} {more last : List Tree} {again : Rule}
    (hrepetition : again.isRepetition = true)
    (hform : formsOf again = either [seq [phrase again, phrase again],
      seq [tokens separators, [[step]]]])
    (hfirst : derives step tree = true) (hmore : haveForm (phrase again) more ∨ more = [])
    (hlast : haveForm (tokens separators) last ∨ last = []) :
    ∃ items, (∀ item ∈ items, derives step item = true) ∧
      Separated separators (items.map words) (wordsOf (tree :: (more ++ last))) ∧
      Contribute separators items (spreadAll (tree :: (more ++ last)))
        (partsOf (tree :: (more ++ last))) := by
  obtain ⟨groups, hgroups, hwords, hspread, hparts⟩ :
      ∃ groups : List (List Tree),
        (∀ group ∈ groups, haveForm (seq [tokens separators, [[step]]]) group) ∧
        wordsOf more = groups.flatMap wordsOf ∧ spreadAll more = groups.flatMap spreadAll ∧
        partsOf more = groups.flatMap partsOf := by
    rcases hmore with hmore | rfl
    · obtain ⟨parts, extent, rfl, hderived⟩ := haveForm_phrase.mp hmore
      obtain ⟨groups, -, hgroups, hwords, hspread, hparts⟩ :=
        hderived.repeated hrepetition hform
      exact ⟨groups, hgroups, by simpa using hwords, by simpa [spread, hrepetition] using hspread,
        by simpa [toParts_repetition hrepetition] using hparts⟩
    · exact ⟨[], by simp, rfl, rfl, rfl⟩
  obtain ⟨items, hitems, htail, hcontribute⟩ := separatedTail_of_groups hgroups hlast
  refine ⟨tree :: items, ?_, ?_, ?_, ?_⟩
  · intro item hitem
    rcases List.mem_cons.mp hitem with rfl | hitem
    · exact hfirst
    · exact hitems item hitem
  · have hcons : Separated separators (tree.words :: items.map words)
        (tree.words ++ (groups.flatMap wordsOf ++ wordsOf last)) :=
      .cons htail
    simpa [hwords] using hcons
  · have hparams := hcontribute.params
    simp only [paramsAmong_append] at hparams
    simp [hspread, hparams]
  · intro β f hf
    have hmeanings := hcontribute.parts f hf
    simp [hparts, hmeanings]

/-- Items that are each followed by a separator, and perhaps one more item: by themselves, and
after another separator. -/
theorem separated_of_terminated {separators : List Token} {groups : List (List Tree)}
    (hgroups : ∀ group ∈ groups, haveForm (seq [[[step]], tokens separators]) group)
    (hlast : trees = [] ∨ ∃ tree, trees = [tree]) :
    ∃ items, (∀ item ∈ items, derives step item = true) ∧
      Separated separators ((items ++ trees).map words)
        (groups.flatMap wordsOf ++ wordsOf trees) ∧
      (∀ separator : Word, separator.1 ∈ separators →
        SeparatedTail separators ((items ++ trees).map words)
          (separator :: (groups.flatMap wordsOf ++ wordsOf trees))) ∧
      ∀ {β : Type} (f : Part → List β),
        (∀ lexeme, lexeme.token ∈ separators → (toParts (leaf {} lexeme)).flatMap f = []) →
        (groups.flatMap partsOf ++ partsOf trees).flatMap f =
          (items ++ trees).flatMap fun item => (toParts item).flatMap f := by
  induction groups with
  | nil =>
      rcases hlast with rfl | ⟨tree, rfl⟩
      · exact ⟨[], by simp, .none .nil, fun _ => .last, by simp⟩
      · refine ⟨[], by simp, .cons .nil, fun _ hseparator => ?_, by simp⟩
        simpa using SeparatedTail.cons hseparator .nil
  | cons group groups ih =>
      obtain ⟨items, hitems, -, htail, hparts⟩ :=
        ih fun other hother => hgroups other (List.mem_cons_of_mem _ hother)
      have hgroup := hgroups group (List.mem_cons_self ..)
      rw [haveForm_step_cons] at hgroup
      obtain ⟨item, _, rfl, hitem, hend⟩ := hgroup
      obtain ⟨lexeme, rfl, hlexeme⟩ := haveForm_tokens.mp (haveForm_single.mp hend)
      -- The items that follow stand after the separator of this one.
      have hrest := htail (lexeme.token, String.ofList lexeme.text) hlexeme
      refine ⟨item :: items, ?_, ?_, fun separator hseparator => ?_, fun f hf => ?_⟩
      · simpa using ⟨hitem, hitems⟩
      · simpa using Separated.cons hrest
      · simpa using SeparatedTail.cons hseparator hrest
      · have hnone := hf lexeme hlexeme
        have hmeanings := hparts f hf
        simp only [toParts_leaf, List.flatMap_cons, List.flatMap_nil, List.append_nil] at hnone
        simp only [List.flatMap_append] at hmeanings
        simp [hnone, hmeanings]

/-! ## Members -/

/-- The members that a tree lists. -/
def membersOf (tree : Tree) : List FieldDecl := tree.toParts.flatMap (·.meaning.members)

theorem membersOf_node {label : Label} (hvisible : rule.isHidden = false) :
    membersOf (node label rule parts extent) = Parts.toMembers rule (partsOf parts) := by
  simp [membersOf, toParts_node hvisible, phraseMeaning]

/-- A tree stands for one part with one member, and the words mean it. -/
def IsMember (phrase : List Word → FieldDecl → Prop) (tree : Tree) : Prop :=
  ∃ member, tree.membersOf = [member] ∧ phrase tree.words member

/-- What items stand for is meant by their words one by one, if each stands for one thing. -/
theorem forall₂_items {β : Type} {phrase : List Word → β → Prop} {f : Tree → List β}
    {items : List Tree}
    (hitems : ∀ item ∈ items, ∃ value, f item = [value] ∧ phrase item.words value) :
    List.Forall₂ phrase (items.map words) (items.flatMap f) := by
  induction items with
  | nil => exact .nil
  | cons item items ih =>
      obtain ⟨value, hvalue, hphrase⟩ := hitems item (List.mem_cons_self ..)
      rw [List.map_cons, List.flatMap_cons, hvalue]
      exact .cons hphrase (ih fun other hother => hitems other (List.mem_cons_of_mem _ hother))

/-- The members of a list are those of its items. -/
theorem Contribute.members {separators : List Token} {items spreads : List Tree}
    {meanings : Parts} (hcontribute : Contribute separators items spreads meanings) :
    Parts.members meanings = items.flatMap membersOf :=
  hcontribute.parts (·.meaning.members) fun _ _ => rfl

/-- A list of items with separators between them, or nothing. -/
theorem separated_of_opt {separators : List Token} {again : Rule}
    (hrepetition : again.isRepetition = true)
    (hform : formsOf again = either [seq [phrase again, phrase again],
      seq [tokens separators, [[step]]]])
    (htrees : haveForm (opt (seq [[[step]], opt (phrase again), opt (tokens separators)])) trees) :
    ∃ items, (∀ item ∈ items, derives step item = true) ∧
      Separated separators (items.map words) (wordsOf trees) ∧
      Contribute separators items (spreadAll trees) (partsOf trees) := by
  rcases haveForm_opt.mp htrees with htrees | rfl
  · obtain ⟨tree, _, rfl, hfirst, hrest⟩ := haveForm_step_cons.mp htrees
    obtain ⟨more, _, rfl, hmore, hrest⟩ := haveForm_cons.mp hrest
    obtain ⟨last, _, rfl, hlast, hnil⟩ := haveForm_cons.mp hrest
    rw [haveForm_nil] at hnil
    subst hnil
    rw [List.append_nil]
    exact separated_of_list hrepetition hform hfirst (haveForm_opt.mp hmore)
      (haveForm_opt.mp hlast)
  · exact ⟨[], by simp, .none .nil, rfl, fun _ _ => rfl⟩

/-! ## Names -/

/-- The names after the first one of a list. -/
theorem namesTail_of_more (label : Label) {again : Rule}
    (hrepetition : again.isRepetition = true) (hname : label.role = some .name)
    (hform : formsOf again = either [seq [phrase again, phrase again],
      seq [token .comma,
        [[{ symbols := [.token .identifier], role := label.role, names := label.names }]]]])
    (hmore : haveForm (opt (phrase again)) trees) :
    NamesTail (Parts.names (partsOf trees)) (wordsOf trees) ∧
      ∀ part ∈ partsOf trees, part.label.role = none ∨ part.label.role = some .name := by
  rcases haveForm_opt.mp hmore with hmore | rfl
  · obtain ⟨parts, extent, rfl, hderived⟩ := haveForm_phrase.mp hmore
    obtain ⟨groups, -, hgroups, hwords, -, hparts⟩ := hderived.repeated hrepetition hform
    simp only [wordsOf_cons, words_node, hwords, wordsOf_nil, List.append_nil, partsOf_cons,
      toParts_repetition hrepetition, hparts, partsOf_nil]
    clear hmore hderived hwords hparts
    induction groups with
    | nil => exact ⟨.nil, by simp⟩
    | cons group groups ih =>
        have hgroup := hgroups group (List.mem_cons_self ..)
        obtain ⟨htail, hroles⟩ :=
          ih fun other hother => hgroups other (List.mem_cons_of_mem _ hother)
        simp only [haveForm_token_cons, haveForm_step_cons, derives_token, haveForm_nil] at hgroup
        obtain ⟨_, _, _, _, rfl, _, _, rfl, ⟨_, name, _, rfl⟩, rfl⟩ := hgroup
        constructor
        · simpa [hname] using NamesTail.cons htail
        · simpa [hname] using hroles
  · exact ⟨.nil, by simp⟩

end Tree

end GoAtlas.Source
