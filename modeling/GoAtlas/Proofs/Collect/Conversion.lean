import GoAtlas.Proofs.Collect.Marks

/-!
# Typed constants and conversions

`const Red Color = "red"` and `const Red = Color("red")` mean the same, whatever stands in the
place of the literal: a file with some constants of the first form rewritten into the second
contributes the same, except that the declarations kept with an alias are the ones written
(`GoFile.collect_rewritten`).  What differs besides are reports on constants that enumerate
nothing, because the two forms say in different words why they do not.

Every collector is compared with its canonical form, which has all such constants as conversions
and no reports on constants.  Entering something and taking the canonical form commute
(`Collector.canonical_enter`), and so do letting a trace take effect and taking the canonical
form (`Collector.canonical_note`), so two files that are canonically the same are collected into
canonically the same model.
-/

namespace GoAtlas

/-! ## Two forms of a constant -/

namespace ConstDecl

/-- The constant as a conversion, if it is a typed one with one initializer. -/
def canonical (decl : ConstDecl) : ConstDecl :=
  match decl.type, decl.values with
  | some (.ident typeName), [value] =>
      { decl with type := none, values := [.call (.ident typeName) [value]] }
  | _, _ => decl

theorem canonical_name (decl : ConstDecl) : decl.canonical.name = decl.name := by
  unfold canonical
  split <;> rfl

end ConstDecl

/-- The second declaration is the first one, or a typed constant rewritten into a conversion. -/
inductive Decl.Rewritten : Decl → Decl → Prop
  | same (decl : Decl) : Rewritten decl decl
  | converted (name typeName : String) (value : ValueExpr) :
      Rewritten (.const ⟨name, some (.ident typeName), [value]⟩)
        (.const ⟨name, none, [.call (.ident typeName) [value]]⟩)

/-- What an entry says, with its constant in canonical form. -/
def Entry.canonical : Entry → Entry
  | .value decl typeName literal => .value decl.canonical typeName literal
  | entry => entry

/-- A report on a constant that enumerates nothing. -/
def Event.isOnConstant : Event → Bool
  | .report _ .complexConstant _ => true
  | _ => false

namespace Trace

/-- The trace without its reports on constants. -/
def canonical (trace : Trace) : Trace :=
  trace.filter fun event => !event.isOnConstant

variable (trace : Trace)

theorem fault?_canonical : fault? trace.canonical = fault? trace := by
  induction trace with
  | nil => rfl
  | cons event rest ih =>
      cases event with
      | need package => exact ih
      | fault fault => rfl
      | report subject kind message => cases kind <;> exact ih

theorem needs_canonical : needs trace.canonical = needs trace := by
  induction trace with
  | nil => rfl
  | cons event rest ih =>
      cases event with
      | need package => exact congrArg (package :: ·) ih
      | fault fault => rfl
      | report subject kind message => cases kind <;> exact ih

theorem reports_canonical (file : String) :
    reports file trace.canonical =
      (reports file trace).filter fun report => report.kind != .complexConstant := by
  induction trace with
  | nil => rfl
  | cons event rest ih =>
      cases event with
      | need package => exact ih
      | fault fault => rfl
      | report subject kind message =>
          cases kind with
          | complexConstant => exact ih
          | malformedTag | unresolvedImport => exact congrArg (List.cons _) ih

end Trace

/-- The two forms of a constant enumerate the same, if they enumerate anything. -/
theorem ConstDecl.reading_converted (name typeName : String) (value : ValueExpr) :
    (∃ literal, reading ⟨name, some (.ident typeName), [value]⟩ = .enumerates typeName literal ∧
      reading ⟨name, none, [.call (.ident typeName) [value]]⟩ = .enumerates typeName literal) ∨
    ((∀ typeName' literal,
        reading ⟨name, some (.ident typeName), [value]⟩ ≠ .enumerates typeName' literal) ∧
      ∀ typeName' literal, reading ⟨name, none, [.call (.ident typeName) [value]]⟩ ≠
        .enumerates typeName' literal) := by
  have hconverted : reading ⟨name, none, [.call (.ident typeName) [value]]⟩ =
      .ofConversion (.ident typeName) [value] := by
    simp [reading, ConstReading.ofUntyped, ValueExpr.firstCall?]
  rw [hconverted]
  simp only [reading, ConstReading.ofConversion]
  cases hliteral : value.firstLiteral? with
  | some literal =>
      refine .inl ⟨literal, ?_, rfl⟩
      cases value <;> simp_all [ConstReading.ofTyped, ValueExpr.firstLiteral?]
  | none =>
      -- Only a typed `iota` passes without a report.
      refine .inr ⟨?_, by simp⟩
      cases value <;> simp [ConstReading.ofTyped, hliteral]

namespace ConstDecl

variable {decl : ConstDecl}

theorem entry_of_not (hother : ∀ typeName literal, decl.reading ≠ .enumerates typeName literal) :
    decl.entry = .nothing := by
  unfold entry
  cases hreading : decl.reading with
  | enumerates typeName literal => exact absurd hreading (hother typeName literal)
  | unrelated | complex _ => rfl

/-- In canonical form the trace of a constant is empty. -/
theorem canonical_trace (decl : ConstDecl) : decl.trace.canonical = [] := by
  unfold trace
  cases decl.reading <;> rfl

end ConstDecl

namespace Decl.Rewritten

variable {decl decl' : Decl}

/-- A rewritten declaration says the same in canonical form. -/
theorem entry (hrewritten : Rewritten decl decl') :
    decl'.entry.canonical = decl.entry.canonical := by
  cases hrewritten with
  | same => rfl
  | converted name typeName value =>
      rw [entry_const, entry_const]
      rcases ConstDecl.reading_converted name typeName value with
        ⟨literal, htyped, hconverted⟩ | ⟨htyped, hconverted⟩
      · simp only [ConstDecl.entry, htyped, hconverted]
        rfl
      · rw [ConstDecl.entry_of_not htyped, ConstDecl.entry_of_not hconverted]

theorem trace (hrewritten : Rewritten decl decl') :
    decl'.trace.canonical = decl.trace.canonical := by
  cases hrewritten with
  | same => rfl
  | converted name typeName value =>
      rw [trace_const, trace_const, ConstDecl.canonical_trace, ConstDecl.canonical_trace]

end Decl.Rewritten

/-! ## Collectors in canonical form -/

/-- The alias with its sources in canonical form. -/
def Alias.canonical (known : Alias) : Alias :=
  { known with sources := known.sources.map ConstDecl.canonical }

namespace Collector

/-- The collector with the declarations of constants in canonical form and without reports on
constants. -/
def canonical (c : Collector) : Collector where
  file := { c.file with aliases := c.file.aliases.map Alias.canonical }
  diagnostics := c.diagnostics.filter fun report => report.kind != .complexConstant
  waiting := c.waiting.map fun entry => (entry.1, entry.2.canonical)
  lastSeq := c.lastSeq

theorem canonical_note (c : Collector) (trace : Trace) :
    (c.note trace).canonical = c.canonical.note trace.canonical := by
  simp [note, canonical, Trace.needs_canonical, Trace.reports_canonical]

theorem lookup_canonical (waiting : List (Nat × ConstDecl)) (seq : Nat) :
    (waiting.map fun entry => (entry.1, entry.2.canonical)).lookup seq =
      (waiting.lookup seq).map ConstDecl.canonical := by
  induction waiting with
  | nil => rfl
  | cons entry rest ih =>
      obtain ⟨number, decl⟩ := entry
      simp only [List.map_cons, List.lookup_cons, ih]
      cases seq == number <;> rfl

theorem canonical_placeAlias (c : Collector) (name : String) (target : GoType) :
    (c.placeAlias name target).2.canonical = (c.canonical.placeAlias name target).2 := by
  have hget : c.canonical.file.aliases.get? name =
      (c.file.aliases.get? name).map Alias.canonical := Table.get?_map ..
  unfold placeAlias
  rw [hget]
  cases c.file.aliases.get? name with
  | some known => simp [canonical, Table.map_insert, Alias.canonical]
  | none =>
      simp [canonical, Table.map_insert, Alias.canonical, List.map_filterMap, lookup_canonical,
        List.filter_map, Function.comp_def]

theorem canonical_addValue (c : Collector) (decl : ConstDecl) (typeName literal : String) :
    (c.addValue decl typeName literal).2.canonical =
      (c.canonical.addValue decl.canonical typeName literal).2 := by
  have hget : c.canonical.file.aliases.get? typeName =
      (c.file.aliases.get? typeName).map Alias.canonical := Table.get?_map ..
  unfold addValue
  rw [hget]
  cases c.file.aliases.get? typeName with
  | some known =>
      simp [canonical, Table.map_insert, Alias.canonical, ConstDecl.canonical_name]
  | none => simp [canonical, ConstDecl.canonical_name]

/-- Entering something and taking the canonical form commute. -/
theorem canonical_enter (c : Collector) (entry : Entry) :
    (c.enter entry).canonical = c.canonical.enter entry.canonical := by
  match entry with
  | .struct _ => rfl
  | .interface _ => rfl
  | .alias name target => exact canonical_placeAlias c name target
  | .value decl typeName literal => exact canonical_addValue c decl typeName literal
  | .nothing => rfl

theorem canonical_enterAll (c : Collector) (entries : List Entry) :
    (c.enterAll entries).canonical = c.canonical.enterAll (entries.map Entry.canonical) := by
  induction entries generalizing c with
  | nil => rfl
  | cons entry rest ih =>
      calc (c.enterAll (entry :: rest)).canonical
          = ((c.enter entry).enterAll rest).canonical := rfl
        _ = (c.enter entry).canonical.enterAll (rest.map Entry.canonical) := ih _
        _ = (c.canonical.enter entry.canonical).enterAll (rest.map Entry.canonical) := by
            rw [canonical_enter]

end Collector

/-! ## Whole files -/

/-- The model without the declarations behind the values of aliases. -/
def FileModel.withoutSources (file : FileModel) : FileModel :=
  { file with aliases := file.aliases.map fun known => { known with sources := [] } }

namespace Collector

/-- The canonical form of a collector tells what it is closed with, apart from sources and from
reports on constants. -/
theorem withoutSources_finish (c : Collector) :
    c.canonical.finish.file.withoutSources = c.finish.file.withoutSources := by
  simp [finish, canonical, FileModel.withoutSources, Table.map_map, Function.comp_def,
    Alias.canonical]

end Collector

namespace Decl

variable {decls decls' : List Decl}

theorem canonical_entries (hrewritten : List.Forall₂ Rewritten decls decls') :
    (decls'.map Decl.entry).map Entry.canonical = (decls.map Decl.entry).map Entry.canonical := by
  induction hrewritten with
  | nil => rfl
  | cons hdecl _ ih => rw [List.map_cons, List.map_cons, hdecl.entry, ih]; rfl

theorem canonical_traces (hrewritten : List.Forall₂ Rewritten decls decls') :
    (traces decls').canonical = (traces decls).canonical := by
  induction hrewritten with
  | nil => rfl
  | cons hdecl _ ih =>
      simp only [traces, List.flatMap_cons, Trace.canonical, List.filter_append]
      exact congrArg₂ _ hdecl.trace ih

end Decl

namespace GoFile

/-- **Typed constants and conversions mean the same.**  With some typed constants rewritten into
conversions a file is collected or not as before and fails with the same fault, and if it is
collected the model is the same apart from the sources of aliases, and so are the reports apart
from those on constants. -/
theorem collect_rewritten {file : GoFile} {decls : List Decl}
    (hrewritten : List.Forall₂ Decl.Rewritten file.decls decls) (name : String) :
    (∀ fault, { file with decls }.collect name = .error fault ↔
      file.collect name = .error fault) ∧
    ∀ first, file.collect name = .ok first →
      ∃ second, { file with decls }.collect name = .ok second ∧
        second.file.withoutSources = first.file.withoutSources ∧
        second.diagnostics.filter (fun report => report.kind != .complexConstant) =
          first.diagnostics.filter fun report => report.kind != .complexConstant := by
  have htraces := Decl.canonical_traces hrewritten
  have hfault : Trace.fault? (Decl.traces decls) = Trace.fault? (Decl.traces file.decls) := by
    rw [← Trace.fault?_canonical, htraces, Trace.fault?_canonical]
  constructor
  · intro fault
    rw [GoFile.collect_eq, GoFile.collect_eq]
    cases Collector.start name file.imports with
    | error other => rfl
    | ok c =>
        simp only [Except.bind, Trace.outcome, hfault]
        cases Trace.fault? (Decl.traces file.decls) <;> simp
  · intro first hfirst
    obtain ⟨c, hstart, hnone, rfl⟩ := GoFile.collect_eq_ok_iff.mp hfirst
    -- Both files start from one collector, and all that they add is canonically the same.
    have hnone' : Trace.fault? (Decl.traces decls) = none := hfault.trans hnone
    have hcanonical : (c.steps (decls.map .add)).canonical =
        (c.steps (file.decls.map .add)).canonical := by
      rw [Collector.steps_add hnone, Collector.steps_add hnone', Collector.canonical_enterAll,
        Collector.canonical_enterAll, Collector.canonical_note, Collector.canonical_note, htraces,
        Decl.canonical_entries hrewritten]
    refine ⟨_, GoFile.collect_eq_ok_iff.mpr ⟨c, hstart, hnone', rfl⟩, ?_, ?_⟩
    · rw [← Collector.withoutSources_finish, hcanonical, Collector.withoutSources_finish]
    · exact congrArg Collector.diagnostics hcanonical

/-- Levels as typed constants, one of them before its alias and one that enumerates nothing. -/
def levels : GoFile where
  package := "p"
  imports := []
  decls := [
    .const ⟨"Low", some (.ident "Level"), [.literal "1"]⟩,
    .type ⟨"Level", .ident "int"⟩,
    .const ⟨"High", some (.ident "Level"), [.compound [.literal "1", .literal "3"]]⟩,
    .const ⟨"Top", some (.ident "Level"), [.ident "Low"]⟩]

/-- The levels as conversions, but for the last. -/
def converted : GoFile :=
  { levels with
    decls := [
      .const ⟨"Low", none, [.call (.ident "Level") [.literal "1"]]⟩,
      .type ⟨"Level", .ident "int"⟩,
      .const ⟨"High", none, [.call (.ident "Level") [.compound [.literal "1", .literal "3"]]]⟩,
      .const ⟨"Top", some (.ident "Level"), [.ident "Low"]⟩] }

theorem collect_rewritten_levels :
    ∃ first second, levels.collect "a.go" = .ok first ∧ converted.collect "a.go" = .ok second ∧
      second.file.withoutSources = first.file.withoutSources ∧ second.file.pending = [] ∧
      first.file.aliases.contains "Level" = true := by
  have hlevels : (levels.collect "a.go").toOption.map (fun collected =>
      (collected.file.pending, collected.file.aliases.contains "Level")) = some ([], true) := by
    decide +kernel
  obtain ⟨first, hfirst, hfound⟩ := Option.map_eq_some_iff.mp hlevels
  obtain ⟨hpending, hlevel⟩ := Prod.mk.inj hfound
  have hrewritten : List.Forall₂ Decl.Rewritten levels.decls converted.decls :=
    .cons (.converted ..) (.cons (.same _) (.cons (.converted ..) (.cons (.same _) .nil)))
  obtain ⟨-, hsame⟩ := collect_rewritten hrewritten "a.go"
  obtain ⟨second, hsecond, hfile, -⟩ := hsame first (eq_ok_of_toOption hfirst)
  have hpending' : second.file.withoutSources.pending = first.file.withoutSources.pending := by
    rw [hfile]
  exact ⟨first, second, eq_ok_of_toOption hfirst, hsecond, hfile, hpending'.trans hpending, hlevel⟩

end GoFile

end GoAtlas
