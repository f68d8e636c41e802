import GoAtlas.Proofs.Collect.Balance
import GoAtlas.Proofs.Collect.Whole

/-!
# References to imported packages

Types refer to imported packages through selectors, at any depth.  In a file that has
been collected every import that a recorded type refers to is marked as needed
(`FileModel.Marked`), which is what a walk relies on when it follows imports.

Marks are made when a type is resolved and types are recorded when nothing in their
declaration is at fault, so the two are brought together by the traces: the packages that
a trace needs are those of the selectors in the type (`TypeExpr.needs_trace`), marks of a
trace without fault are never lost, and every recorded type comes from a declaration whose
trace is part of the trace of the file.
-/

namespace GoAtlas

/-! ## Selectors -/

namespace GoType

mutual

/-- The selectors in a type, at any depth, from left to right: the local name of the
package and the name in it. -/
def selectors : GoType → List (String × String)
  | .primitive _ => []
  | .array elem => elem.selectors
  | .map key value => key.selectors ++ value.selectors
  | .struct fields => selectorsAll fields
  | .interface methods => selectorsAll methods
  | .pointer target => target.selectors
  | .selector package name => [(package, name)]
  | .func args results => selectorsAll args ++ selectorsAll results
  | .channel elem _ => elem.selectors
  | .ellipsis elem => elem.selectors

def selectorsAll : List GoType → List (String × String)
  | [] => []
  | type :: rest => type.selectors ++ selectorsAll rest

end

end GoType

namespace Trace

theorem fault?_of_subset {part whole : Trace} (hsubset : part ⊆ whole)
    (hnone : fault? whole = none) : fault? part = none := by
  rw [fault?_eq_none_iff] at hnone ⊢
  exact fun fault hfault => hnone fault (hsubset hfault)

theorem needs_append_eq {first second : Trace} {names names' : List String}
    (hnone : fault? (first ++ second) = none) (hfirst : fault? first = none → needs first = names)
    (hsecond : fault? second = none → needs second = names') :
    needs (first ++ second) = names ++ names' := by
  rw [fault?_append, Option.or_eq_none_iff] at hnone
  rw [needs_append hnone.1, hfirst hnone.1, hsecond hnone.2]

end Trace

namespace TypeExpr

mutual

/-- The packages needed by a type expression are those of the selectors in the type. -/
theorem needs_trace : ∀ expr : TypeExpr, Trace.fault? expr.trace = none →
    Trace.needs expr.trace = expr.shape.selectors.map Prod.fst
  | .ident _, _ => by simp [trace, shape, GoType.selectors, Trace.needs]
  | .selector _ _, _ => by simp [trace, shape, GoType.selectors, Trace.needs]
  | .array elem, hnone => by
      simp only [trace, shape, GoType.selectors] at hnone ⊢
      exact needs_trace elem hnone
  | .map key value, hnone => by
      simp only [trace, shape, GoType.selectors, List.map_append] at hnone ⊢
      exact Trace.needs_append_eq hnone (needs_trace key) (needs_trace value)
  | .pointer target, hnone => by
      simp only [trace, shape, GoType.selectors] at hnone ⊢
      exact needs_trace target hnone
  | .struct _ true, hnone => by simp [trace, Trace.fault?] at hnone
  | .struct fields false, hnone => by
      simp only [trace, shape, GoType.selectors] at hnone ⊢
      exact needs_traceMembers fields hnone
  | .interface elements, hnone => by
      simp only [trace, shape, GoType.selectors] at hnone ⊢
      exact needs_traceMembers elements hnone
  | .func params results, hnone => by
      simp only [trace, shape, GoType.selectors, List.map_append] at hnone ⊢
      exact Trace.needs_append_eq hnone (needs_traceMembers params) (needs_traceMembers results)
  | .chan _ elem, hnone => by
      simp only [trace, shape, GoType.selectors] at hnone ⊢
      exact needs_trace elem hnone
  | .ellipsis elem, hnone => by
      simp only [trace, shape, GoType.selectors] at hnone ⊢
      exact needs_trace elem hnone
  | .unsupported _, hnone => by simp [trace, Trace.fault?] at hnone

theorem needs_traceMembers : ∀ members : List (Member TypeExpr),
    Trace.fault? (traceMembers members) = none →
      Trace.needs (traceMembers members) = (GoType.selectorsAll (shapes members)).map Prod.fst
  | [], _ => by simp [traceMembers, shapes, GoType.selectorsAll, Trace.needs]
  | ⟨_, type, _⟩ :: rest, hnone => by
      simp only [traceMembers, shapes, GoType.selectorsAll, List.map_append] at hnone ⊢
      exact Trace.needs_append_eq hnone (needs_trace type) (needs_traceMembers rest)

end

theorem need_mem_trace {expr : TypeExpr} {package name : String}
    (hnone : Trace.fault? expr.trace = none)
    (hselector : (package, name) ∈ expr.shape.selectors) : Event.need package ∈ expr.trace := by
  rw [← Trace.mem_needs hnone, needs_trace expr hnone]
  exact List.mem_map.mpr ⟨_, hselector, rfl⟩

end TypeExpr

/-! ## Recorded types -/

def StructModel.types (model : StructModel) : List GoType :=
  model.fields.values.map StructField.type

/-- The types recorded for a file: those of the fields of its structs, and what its
aliases stand for. -/
def FileModel.types (file : FileModel) : List GoType :=
  file.structs.values.flatMap StructModel.types ++ file.aliases.values.map Alias.target

def Entry.types : Entry → List GoType
  | .struct model => model.types
  | .alias _ target => [target]
  | _ => []

namespace Collector

variable {c : Collector} {type : GoType}

theorem mem_types_placeAlias {name : String} {target : GoType}
    (htype : type ∈ (c.placeAlias name target).2.file.types) :
    type ∈ c.file.types ∨ type = target := by
  obtain ⟨new, hnew, haliases, hstructs⟩ : ∃ new : Alias, new.target = target ∧
      (c.placeAlias name target).2.file.aliases = c.file.aliases.insert name new ∧
      (c.placeAlias name target).2.file.structs = c.file.structs := by
    unfold placeAlias
    cases c.file.aliases.get? name <;> exact ⟨_, rfl, rfl, rfl⟩
  simp only [FileModel.types, hstructs, haliases, List.mem_append, List.mem_map] at htype ⊢
  rcases htype with hstruct | ⟨known, hknown, rfl⟩
  · exact Or.inl (Or.inl hstruct)
  · rcases Table.mem_values_insert hknown with rfl | hbefore
    · exact Or.inr hnew
    · exact Or.inl (Or.inr ⟨known, hbefore, rfl⟩)

theorem mem_types_addValue {decl : ConstDecl} {typeName literal : String}
    (htype : type ∈ (c.addValue decl typeName literal).2.file.types) : type ∈ c.file.types := by
  unfold addValue at htype
  cases hget : c.file.aliases.get? typeName with
  | none =>
      rw [hget] at htype
      exact htype
  | some known =>
      rw [hget] at htype
      simp only [FileModel.types, List.mem_append, List.mem_map] at htype ⊢
      rcases htype with hstruct | ⟨found, hfound, rfl⟩
      · exact Or.inl hstruct
      · rcases Table.mem_values_insert hfound with rfl | hbefore
        · exact Or.inr ⟨known, Table.mem_values_of_get? hget, rfl⟩
        · exact Or.inr ⟨found, hbefore, rfl⟩

/-- The types after an entry were recorded before or are recorded by it. -/
theorem mem_types_enter {entry : Entry} (htype : type ∈ (c.enter entry).file.types) :
    type ∈ c.file.types ∨ type ∈ entry.types := by
  match entry with
  | .struct model =>
      simp only [enter, FileModel.types, List.mem_append, List.mem_flatMap] at htype
      rcases htype with ⟨found, hfound, htype⟩ | halias
      · rcases Table.mem_values_insert hfound with rfl | hbefore
        · exact Or.inr htype
        · exact Or.inl (List.mem_append_left _ (List.mem_flatMap.mpr ⟨found, hbefore, htype⟩))
      · exact Or.inl (List.mem_append_right _ halias)
  | .interface name => exact Or.inl htype
  | .alias name target =>
      rcases mem_types_placeAlias htype with hbefore | rfl
      · exact Or.inl hbefore
      · exact Or.inr (List.mem_singleton.mpr rfl)
  | .value decl typeName literal => exact Or.inl (mem_types_addValue htype)
  | .nothing => exact Or.inl htype

theorem mem_types_enterAll {entries : List Entry} (htype : type ∈ (c.enterAll entries).file.types) :
    type ∈ c.file.types ∨ ∃ entry ∈ entries, type ∈ entry.types := by
  induction entries generalizing c with
  | nil => exact Or.inl htype
  | cons entry rest ih =>
      rcases ih htype with hbefore | ⟨other, hother, htype⟩
      · rcases mem_types_enter hbefore with hbefore | hentry
        · exact Or.inl hbefore
        · exact Or.inr ⟨entry, List.mem_cons_self .., hentry⟩
      · exact Or.inr ⟨other, List.mem_cons_of_mem _ hother, htype⟩

/-! ## Types of declarations -/

theorem mem_values_foldl_insert {fields : List StructField} {table : Table StructField}
    {field : StructField}
    (hfield : field ∈ (fields.foldl (fun table field => table.insert field.name field)
      table).values) : field ∈ table.values ∨ field ∈ fields := by
  induction fields generalizing table with
  | nil => exact Or.inl hfield
  | cons first rest ih =>
      rcases ih hfield with hbefore | hrest
      · rcases Table.mem_values_insert hbefore with rfl | hbefore
        · exact Or.inr (List.mem_cons_self ..)
        · exact Or.inl hbefore
      · exact Or.inr (List.mem_cons_of_mem _ hrest)

theorem mem_insertFields {members : List FieldDecl} {table : Table StructField}
    {field : StructField} (hfield : field ∈ (insertFields table members).values) :
    field ∈ table.values ∨ ∃ member ∈ members, field.type = member.type.shape := by
  induction members generalizing table with
  | nil => exact Or.inl hfield
  | cons member rest ih =>
      rcases ih hfield with hbefore | ⟨other, hother, htype⟩
      · rcases mem_values_foldl_insert hbefore with hbefore | hdeclared
        · exact Or.inl hbefore
        · obtain ⟨name, -, rfl⟩ := List.mem_map.mp hdeclared
          exact Or.inr ⟨member, List.mem_cons_self .., rfl⟩
      · exact Or.inr ⟨other, List.mem_cons_of_mem _ hother, htype⟩

end Collector

theorem TypeDecl.need_mem_structTrace {decl : TypeDecl} {type : GoType} {package name : String}
    (hnone : Trace.fault? decl.structTrace = none) (htype : type ∈ decl.structModel.types)
    (hselector : (package, name) ∈ type.selectors) : Event.need package ∈ decl.structTrace := by
  obtain ⟨declared, expr⟩ := decl
  cases expr with
  | struct members incomplete =>
      cases incomplete with
      | true => simp [structTrace, Trace.fault?] at hnone
      | false =>
          obtain ⟨field, hfield, rfl⟩ := List.mem_map.mp htype
          rcases Collector.mem_insertFields hfield with hempty | ⟨member, hmember, hshape⟩
          · cases hempty
          · have hsubset : member.type.trace ⊆
                members.flatMap (Collector.memberTrace declared) := by
              intro event hevent
              exact List.mem_flatMap.mpr ⟨member, hmember, List.mem_append_left _ hevent⟩
            rw [hshape] at hselector
            exact hsubset
              (TypeExpr.need_mem_trace (Trace.fault?_of_subset hsubset hnone) hselector)
  | _ => simp [structTrace, Trace.fault?] at hnone

/-- Every selector in a type that a declaration records has been met in the
declaration. -/
theorem Decl.need_mem_trace {decl : Decl} {type : GoType} {package name : String}
    (hnone : Trace.fault? decl.trace = none) (htype : type ∈ decl.entry.types)
    (hselector : (package, name) ∈ type.selectors) : Event.need package ∈ decl.trace := by
  match decl with
  | .func decl =>
      rw [Decl.entry_func] at htype
      cases htype
  | .const decl =>
      rw [Decl.entry_const] at htype
      unfold ConstDecl.entry at htype
      cases hreading : decl.reading <;> simp [hreading, Entry.types] at htype
  | .type decl =>
      rcases Decl.type_cases decl with
        ⟨hentry, htrace⟩ | ⟨hentry, htrace⟩ | ⟨hentry, htrace⟩ | ⟨hentry, htrace⟩
      · rw [htrace] at hnone ⊢
        rw [hentry] at htype
        exact TypeDecl.need_mem_structTrace hnone htype hselector
      · rw [hentry] at htype
        cases htype
      · rw [htrace] at hnone ⊢
        rw [hentry] at htype
        rw [List.mem_singleton.mp htype] at hselector
        exact TypeExpr.need_mem_trace hnone hselector
      · rw [hentry] at htype
        cases htype

/-! ## Whole files -/

/-- Every import that a recorded type refers to is marked. -/
def FileModel.Marked (file : FileModel) : Prop :=
  ∀ type ∈ file.types, ∀ package name, (package, name) ∈ type.selectors →
    ∀ entry, file.imports.get? package = some entry → entry.needed = true

/-- **A collected file is marked.** -/
theorem GoFile.collect_marked {name : String} {file : GoFile} {collected : Collected}
    (hcollect : file.collect name = .ok collected) : collected.file.Marked := by
  obtain ⟨c, hstart, hnone, rfl⟩ := GoFile.collect_eq_ok_iff.mp hcollect
  rw [(Collector.keeps_steps (Collector.keeps_start hstart) _).finish_file,
    Collector.steps_add hnone]
  intro type htype package selected hselector entry hentry
  -- The type comes from a declaration, whose trace is part of the trace of the file.
  have hneed : Event.need package ∈ Decl.traces file.decls := by
    rcases Collector.mem_types_enterAll htype with hbefore | ⟨said, hsaid, htype⟩
    · unfold Collector.start at hstart
      split at hstart <;> cases hstart
      cases hbefore
    · obtain ⟨decl, hdecl, rfl⟩ := List.mem_map.mp hsaid
      have hsubset : decl.trace ⊆ Decl.traces file.decls := by
        intro event hevent
        exact List.mem_flatMap.mpr ⟨decl, hdecl, hevent⟩
      exact hsubset
        (Decl.need_mem_trace (Trace.fault?_of_subset hsubset hnone) htype hselector)
  -- Entries leave the marks of the traces as they are.
  rw [(Collector.sameNotes_enterAll _ _).imports, Collector.note, ImportTable.get?_needAll,
    Option.map_eq_some_iff] at hentry
  obtain ⟨before, -, rfl⟩ := hentry
  rw [if_pos ((Trace.mem_needs hnone).mpr hneed)]

end GoAtlas
