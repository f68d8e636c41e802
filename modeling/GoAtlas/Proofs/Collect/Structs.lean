import GoAtlas.Proofs.Collect.Flaws

/-!
# What stays of a struct

Things are overwritten at two levels when structs are collected: a struct by a later one of its
name, and a field by a later one of its name, where the names of embedded fields, which come
from their types, may clash with those that are written out.  At both levels the last
declaration counts and nothing of the earlier ones is left (`GoFile.collect_structs`).

Both levels are folds in which a step either says something of its own about a key or leaves
alone what was known of it, and of such a fold the last step that says something counts
(`foldl_last?`).  It remains to tell what a member says about a field (`Member.field?`) and a
declaration about a struct (`Decl.struct?`).
-/

namespace GoAtlas

/-! ## The last step counts -/

section Last

variable {σ ι β : Type} {step : σ → ι → σ} {value? : ι → Option β}

/-- If each step shows a value of its own or leaves the view alone, a fold shows the last value. -/
theorem foldl_last? (view : σ → Option β)
    (hstep : ∀ state item, view (step state item) = (value? item).or (view state))
    (items : List ι) (state : σ) :
    view (items.foldl step state) = (items.reverse.findSome? value?).or (view state) := by
  induction items generalizing state with
  | nil => rfl
  | cons item rest ih =>
      -- What the rest shows hides what `item` shows, and this hides what was there before.
      rw [List.foldl_cons, ih, hstep, List.reverse_cons, List.findSome?_append, Option.or_assoc]
      simp

theorem findSome?_reverse_eq_some_iff {items : List ι} {value : β} :
    items.reverse.findSome? value? = some value ↔
      ∃ before item after, items = before ++ item :: after ∧ value? item = some value ∧
        ∀ later ∈ after, value? later = none := by
  rw [List.findSome?_eq_some_iff]
  constructor
  · rintro ⟨after, item, before, hsplit, hitem, hafter⟩
    refine ⟨before.reverse, item, after.reverse, ?_, hitem, by simpa using hafter⟩
    rw [← List.reverse_reverse items, hsplit]
    simp
  · rintro ⟨before, item, after, rfl, hitem, hafter⟩
    exact ⟨after.reverse, item, before.reverse, by simp, hitem, by simpa using hafter⟩

theorem exists_findSome?_reverse_iff {items : List ι} :
    (∃ value, items.reverse.findSome? value? = some value) ↔
      ∃ item ∈ items, ∃ value, value? item = some value := by
  rw [← Option.isSome_iff_exists, List.findSome?_isSome_iff]
  simp [Option.isSome_iff_exists]

end Last

/-! ## Fields -/

namespace Member

/-- The member declares a field of the given name: it lists the name, or it lists none and the
name is that of its type. -/
def Declares (name : String) (member : FieldDecl) : Prop :=
  name ∈ member.names ∨ member.names = [] ∧ member.type.innermost? = some name

/-- The field has the type and the tags of the member, and is embedded if the member has no
names. -/
structure Describes (field : StructField) (member : FieldDecl) : Prop where
  type : ∀ imports, (member.type.resolve imports).1 = .ok field.type
  tags : ∀ literal, member.tag = some literal →
    ∃ tags, Tags.read literal = .ok tags ∧ field.tags = tags.values
  untagged : member.tag = none → field.tags = Table.empty
  embedded : field.embedded = true ↔ member.names = []

variable {member : FieldDecl} {name : String}

theorem mem_declared_iff : name ∈ (declared member).1 ↔ member.Declares name := by
  unfold declared Declares
  cases member.names with
  | nil => simp [eq_comm]
  | cons first rest => simp

theorem declared_embedded : (declared member).2 = true ↔ member.names = [] := by
  unfold declared
  cases member.names <;> simp

/-- What a member says about the field `name`, if nothing in it is at fault. -/
def field? (name : String) (member : FieldDecl) : Option StructField :=
  if name ∈ (declared member).1 then
    some ⟨name, Collector.tagValues member.tag, member.type.shape, (declared member).2⟩
  else none

theorem field?_eq_none_iff : member.field? name = none ↔ ¬ member.Declares name := by
  rw [← mem_declared_iff]
  simp [field?]

theorem exists_field?_iff : (∃ field, member.field? name = some field) ↔ member.Declares name := by
  rw [← mem_declared_iff]
  simp [field?]

/-- What a sound member says about a field describes it. -/
theorem describes_of_field? {field : StructField} (hsound : ¬ IsFlawed member)
    (hfield : member.field? name = some field) : field.name = name ∧ member.Describes field := by
  unfold field? at hfield
  split at hfield
  case isFalse => cases hfield
  case isTrue =>
    cases hfield
    refine ⟨rfl, ?_, ?_, ?_, declared_embedded⟩
    · intro imports
      have htype : Trace.fault? member.type.trace = none :=
        TypeExpr.fault?_trace_eq_none_iff.mpr fun hflawed => hsound (.type hflawed)
      rw [TypeExpr.resolve_eq]
      exact Trace.outcome_of_none htype
    · intro literal htag
      cases hread : Literal.unquote literal with
      | error fault => exact absurd (.tag htag hread) hsound
      | ok text =>
          have htags : Tags.read literal = .ok (Tags.ofPairs (Tags.pairs text.toList)) := by
            rw [Tags.read, hread]
          refine ⟨_, htags, ?_⟩
          simp only [Collector.tagValues, htag, htags]
    · intro htag
      simp only [Collector.tagValues, htag]

end Member

namespace Collector

theorem get?_insertMember (table : Table StructField) (member : FieldDecl) (name : String) :
    ((Member.fields member).foldl (fun fields field => fields.insert field.name field) table).get?
        name = (member.field? name).or (table.get? name) := by
  unfold Member.fields Member.field?
  generalize (Member.declared member).1 = names
  induction names generalizing table with
  | nil => rfl
  | cons first rest ih =>
      rw [List.map_cons, List.foldl_cons, ih, Table.get?_insert]
      by_cases hrest : name ∈ rest
      · simp [hrest]
      · by_cases hfirst : name = first
        · subst hfirst
          simp [hrest]
        · simp [hrest, hfirst]

/-- Of the members of a struct, the last that declares a field counts. -/
theorem get?_insertFields (members : List FieldDecl) (name : String) :
    (insertFields Table.empty members).get? name =
      members.reverse.findSome? (Member.field? name) := by
  have hlast := foldl_last? (fun fields : Table StructField => fields.get? name)
    (fun fields member => get?_insertMember fields member name) members Table.empty
  rwa [Table.get?_empty, Option.or_none] at hlast

end Collector

/-! ## Structs -/

namespace Decl

/-- The declaration is that of an exported struct of the given name. -/
def DeclaresStruct (name : String) (decl : Decl) : Prop :=
  isExported name = true ∧ ∃ members incomplete, decl = .type ⟨name, .struct members incomplete⟩

end Decl

/-- What an entry says about the struct `name`. -/
def Entry.struct? (name : String) : Entry → Option StructModel
  | .struct model => if model.name = name then some model else none
  | _ => none

/-- What a declaration says about the struct `name`, if nothing in it is at fault. -/
def Decl.struct? (name : String) (decl : Decl) : Option StructModel :=
  decl.entry.struct? name

namespace Decl

variable {decl : Decl} {name : String} {model : StructModel}

theorem struct?_struct (owner : String) (members : List FieldDecl) (incomplete : Bool) :
    (Decl.type ⟨owner, .struct members incomplete⟩).struct? name =
      if isExported owner = true ∧ owner = name then
        some ⟨owner, Collector.insertFields Table.empty members⟩
      else none := by
  cases hexported : isExported owner <;>
    simp [struct?, entry, role?, isStruct, isInterface, isAlias, isAliasValue, isExportedType,
      hexported, Entry.struct?, TypeDecl.structModel]

theorem struct?_other {owner : String} {expr : TypeExpr}
    (hother : ∀ members incomplete, expr ≠ .struct members incomplete) :
    (Decl.type ⟨owner, expr⟩).struct? name = none := by
  cases hexported : isExported owner <;> cases expr <;>
    simp_all [struct?, entry, role?, isStruct, isInterface, isAlias, isAliasValue, isExportedType,
      Entry.struct?]

theorem struct?_const (decl : ConstDecl) : (Decl.const decl).struct? name = none := by
  rw [struct?, entry_const, ConstDecl.entry]
  cases decl.reading <;> rfl

theorem struct?_eq_some_iff :
    decl.struct? name = some model ↔ isExported name = true ∧ ∃ members incomplete,
      decl = .type ⟨name, .struct members incomplete⟩ ∧
        model = ⟨name, Collector.insertFields Table.empty members⟩ := by
  constructor
  · intro hmodel
    match decl with
    | .const decl =>
        rw [struct?_const] at hmodel
        cases hmodel
    | .func decl =>
        rw [struct?, entry_func] at hmodel
        cases hmodel
    | .type ⟨owner, expr⟩ =>
        by_cases hstruct : ∃ members incomplete, expr = .struct members incomplete
        · obtain ⟨members, incomplete, rfl⟩ := hstruct
          rw [struct?_struct] at hmodel
          split at hmodel
          case isFalse => cases hmodel
          case isTrue hname =>
            obtain ⟨hexported, rfl⟩ := hname
            exact ⟨hexported, members, incomplete, rfl, (Option.some.inj hmodel).symm⟩
        · rw [struct?_other fun members incomplete heq => hstruct ⟨members, incomplete, heq⟩]
            at hmodel
          cases hmodel
  · rintro ⟨hexported, members, incomplete, rfl, rfl⟩
    rw [struct?_struct, if_pos ⟨hexported, rfl⟩]

theorem exists_struct?_iff :
    (∃ model, decl.struct? name = some model) ↔ decl.DeclaresStruct name := by
  simp only [struct?_eq_some_iff, DeclaresStruct]
  constructor
  · rintro ⟨-, hexported, members, incomplete, hdecl, -⟩
    exact ⟨hexported, members, incomplete, hdecl⟩
  · rintro ⟨hexported, members, incomplete, hdecl⟩
    exact ⟨_, hexported, members, incomplete, hdecl, rfl⟩

theorem struct?_eq_none_iff : decl.struct? name = none ↔ ¬ decl.DeclaresStruct name := by
  rw [← exists_struct?_iff, ← Option.isSome_iff_exists, Option.not_isSome_iff_eq_none]

end Decl

namespace Collector

theorem structs_enter (c : Collector) (entry : Entry) (name : String) :
    (c.enter entry).file.structs.get? name =
      (entry.struct? name).or (c.file.structs.get? name) := by
  match entry with
  | .struct model =>
      simp only [enter, Entry.struct?, Table.get?_insert, eq_comm (a := name)]
      split <;> rfl
  | .interface _ => rfl
  | .alias other _ =>
      simp only [enter, placeAlias]
      cases c.file.aliases.get? other <;> rfl
  | .value _ typeName _ =>
      simp only [enter, addValue]
      cases c.file.aliases.get? typeName <;> rfl
  | .nothing => rfl

/-- Of the declarations of a file, the last of a struct counts. -/
theorem structs_enterAll (c : Collector) (decls : List Decl) (name : String) :
    (c.enterAll (decls.map Decl.entry)).file.structs.get? name =
      (decls.reverse.findSome? (Decl.struct? name)).or (c.file.structs.get? name) := by
  rw [enterAll, List.foldl_map]
  exact foldl_last? (fun c : Collector => c.file.structs.get? name)
    (fun c decl => structs_enter c decl.entry name) decls c

end Collector

namespace GoFile

variable {name : String} {file : GoFile} {collected : Collected}

theorem get?_structs (hcollect : file.collect name = .ok collected) (owner : String) :
    collected.file.structs.get? owner = file.decls.reverse.findSome? (Decl.struct? owner) := by
  obtain ⟨c, hstart, hnone, rfl⟩ := GoFile.collect_eq_ok_iff.mp hcollect
  have hempty : c.file.structs = Table.empty := by
    obtain ⟨declared, -, rfl⟩ := Collector.start_eq_ok_iff.mp hstart
    rfl
  calc (c.steps (file.decls.map .add)).finish.file.structs.get? owner
      = (c.steps (file.decls.map .add)).file.structs.get? owner := rfl
    _ = ((c.note (Decl.traces file.decls)).enterAll
          (file.decls.map Decl.entry)).file.structs.get? owner := by
        rw [Collector.steps_add hnone]
    _ = (file.decls.reverse.findSome? (Decl.struct? owner)).or (c.file.structs.get? owner) :=
        Collector.structs_enterAll _ _ _
    _ = file.decls.reverse.findSome? (Decl.struct? owner) := by
        rw [hempty, Table.get?_empty, Option.or_none]

theorem not_isFatal_of_collect (hcollect : file.collect name = .ok collected) {decl : Decl}
    (hdecl : decl ∈ file.decls) : ¬ decl.IsFatal := by
  obtain ⟨-, -, hnone, -⟩ := GoFile.collect_eq_ok_iff.mp hcollect
  exact Decl.fault?_eq_none_iff.mp (Trace.fault?_flatMap_eq_none_iff.mp hnone decl hdecl)

/-- **A struct is what its last declaration says, field by field.**  A collected file has the
structs that exported declarations of it name.  Each is built from the last declaration of its
name: it has the fields that the members of that body declare, and each field is described by
the last member that declares it. -/
theorem collect_structs (hcollect : file.collect name = .ok collected) :
    (∀ owner, owner ∈ collected.file.structs.keys ↔
      ∃ decl ∈ file.decls, decl.DeclaresStruct owner) ∧
    ∀ (owner : String) (model : StructModel), collected.file.structs.get? owner = some model →
      ∃ (before after : List Decl) (members : List FieldDecl),
        file.decls = before ++ .type ⟨owner, .struct members false⟩ :: after ∧
        (∀ later ∈ after, ¬ later.DeclaresStruct owner) ∧ model.name = owner ∧
        (∀ key, key ∈ model.fields.keys ↔ ∃ member ∈ members, member.Declares key) ∧
        ∀ (key : String) (field : StructField), model.fields.get? key = some field →
          field.name = key ∧
            ∃ (earlier others : List FieldDecl) (member : FieldDecl),
              members = earlier ++ member :: others ∧ member.Declares key ∧
              (∀ other ∈ others, ¬ other.Declares key) ∧ member.Describes field := by
  constructor
  · intro owner
    rw [Table.mem_keys, Table.contains_iff]
    simp only [get?_structs hcollect, exists_findSome?_reverse_iff, Decl.exists_struct?_iff]
  · intro owner model hmodel
    rw [get?_structs hcollect, findSome?_reverse_eq_some_iff] at hmodel
    obtain ⟨before, decl, after, hsplit, hdecl, hafter⟩ := hmodel
    obtain ⟨hexported, members, incomplete, rfl, rfl⟩ := Decl.struct?_eq_some_iff.mp hdecl
    have hmem : Decl.type ⟨owner, .struct members incomplete⟩ ∈ file.decls := by
      rw [hsplit]
      exact List.mem_append_right before (List.mem_cons_self ..)
    have hsound := not_isFatal_of_collect hcollect hmem
    cases incomplete with
    | true => exact absurd (.incomplete hexported) hsound
    | false =>
        refine ⟨before, after, members, hsplit,
          fun later hlater => Decl.struct?_eq_none_iff.mp (hafter later hlater), rfl, ?_, ?_⟩
        · intro key
          rw [Table.mem_keys, Table.contains_iff]
          simp only [Collector.get?_insertFields, exists_findSome?_reverse_iff,
            Member.exists_field?_iff]
        · intro key field hfield
          rw [Collector.get?_insertFields, findSome?_reverse_eq_some_iff] at hfield
          obtain ⟨earlier, member, others, rfl, hmember, hothers⟩ := hfield
          have hmemberSound : ¬ Member.IsFlawed member := fun hflawed =>
            hsound (.member hexported (by simp) hflawed)
          obtain ⟨hname, hdescribes⟩ := Member.describes_of_field? hmemberSound hmember
          exact ⟨hname, earlier, others, member, rfl, Member.exists_field?_iff.mp ⟨field, hmember⟩,
            fun other hother => Member.field?_eq_none_iff.mp (hothers other hother), hdescribes⟩

/-- A struct is declared twice, and in its second body two members share a tag, one of them
under a name that an embedded field takes as well. -/
def overlapping : GoFile where
  package := "p"
  imports := [⟨"\"time\"", none⟩]
  decls := [
    .type ⟨"Box", .struct [⟨["Old"], .ident "int", none⟩] false⟩,
    .type ⟨"Box", .struct [⟨["At", "Time"], .ident "int", some "`json:\"at\"`"⟩,
      ⟨[], .pointer (.selector "time" "Time"), none⟩] false⟩,
    .const ⟨"Box", none, [.iota]⟩]

theorem collect_structs_overlapping :
    ∃ collected model field, overlapping.collect "a.go" = .ok collected ∧
      collected.file.structs.get? "Box" = some model ∧ model.fields.keys = ["At", "Time"] ∧
      model.fields.get? "Time" = some field ∧
      (∃ decl ∈ overlapping.decls, decl.DeclaresStruct "Box") ∧ model.name = "Box" ∧
      ∃ member : FieldDecl, member.Declares "Time" ∧ member.names = [] ∧
        member.Describes field := by
  have hcollected : (overlapping.collect "a.go").toOption.map (fun collected =>
      (collected.file.structs.get? "Box").map fun model =>
        (model.fields.keys, (model.fields.get? "Time").map (·.embedded))) =
      some (some (["At", "Time"], some true)) := by decide +kernel
  obtain ⟨collected, hcollect, hstruct⟩ := Option.map_eq_some_iff.mp hcollected
  obtain ⟨model, hmodel, hfields⟩ := Option.map_eq_some_iff.mp hstruct
  obtain ⟨hkeys, htime⟩ := Prod.mk.inj hfields
  obtain ⟨field, hfield, hembedded⟩ := Option.map_eq_some_iff.mp htime
  obtain ⟨hstructs, hbodies⟩ := collect_structs (eq_ok_of_toOption hcollect)
  obtain ⟨before, after, members, -, -, hname, -, hlast⟩ := hbodies "Box" model hmodel
  obtain ⟨-, -, -, member, -, hdeclares, -, hdescribes⟩ := hlast "Time" field hfield
  have hdeclared := (hstructs "Box").mp (Table.mem_keys.mpr (Table.contains_of_get? hmodel))
  exact ⟨collected, model, field, eq_ok_of_toOption hcollect, hmodel, hkeys, hfield, hdeclared,
    hname, member, hdeclares, hdescribes.embedded.mp hembedded, hdescribes⟩

end GoFile

end GoAtlas
