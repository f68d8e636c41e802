import GoAtlas.Proofs.Collect.Trace

/-!
# Collecting a whole file

Marks on imports and reports on one side, and what declarations say on the other, do not
touch each other: `Collector.note_enter`.  So all the marks and reports of a file can be
made before anything is entered, and collecting a file comes apart into the traces of its
declarations, one after another, and the entries of its declarations
(`Collector.steps_add`).  The file is collected exactly if there is no fault in the
traces (`GoFile.collect_eq`).
-/

namespace GoAtlas

/-- The events met in declarations, one declaration after another. -/
def Decl.traces (decls : List Decl) : Trace :=
  decls.flatMap Decl.trace

namespace Collector

def enterAll (c : Collector) (entries : List Entry) : Collector :=
  entries.foldl enter c

/-- The part of a collector that traces work on is the same. -/
structure SameNotes (c c' : Collector) : Prop where
  name : c'.file.name = c.file.name
  imports : c'.file.imports = c.file.imports
  diagnostics : c'.diagnostics = c.diagnostics

variable {c : Collector}

/-! ## Marks and reports come first -/

theorem sameNotes_placeAlias (c : Collector) (name : String) (target : GoType) :
    c.SameNotes (c.placeAlias name target).2 := by
  unfold placeAlias
  cases c.file.aliases.get? name <;> exact ⟨rfl, rfl, rfl⟩

theorem sameNotes_addValue (c : Collector) (decl : ConstDecl) (typeName literal : String) :
    c.SameNotes (c.addValue decl typeName literal).2 := by
  unfold addValue
  cases c.file.aliases.get? typeName <;> exact ⟨rfl, rfl, rfl⟩

theorem sameNotes_enter (c : Collector) (entry : Entry) : c.SameNotes (c.enter entry) := by
  match entry with
  | .struct _ => exact ⟨rfl, rfl, rfl⟩
  | .interface _ => exact ⟨rfl, rfl, rfl⟩
  | .alias name target => exact sameNotes_placeAlias c name target
  | .value decl typeName literal => exact sameNotes_addValue c decl typeName literal
  | .nothing => exact ⟨rfl, rfl, rfl⟩

theorem sameNotes_enterAll (c : Collector) (entries : List Entry) :
    c.SameNotes (c.enterAll entries) := by
  induction entries generalizing c with
  | nil => exact ⟨rfl, rfl, rfl⟩
  | cons entry rest ih =>
      have hentry := sameNotes_enter c entry
      have hrest := ih (c.enter entry)
      exact ⟨hrest.name.trans hentry.name, hrest.imports.trans hentry.imports,
        hrest.diagnostics.trans hentry.diagnostics⟩

/-- What is entered does not depend on marks and reports. -/
theorem note_enter (c : Collector) (entry : Entry) (trace : Trace) :
    (c.enter entry).note trace = (c.note trace).enter entry := by
  match entry with
  | .struct _ => rfl
  | .interface _ => rfl
  | .alias name _ =>
      have hsame : (c.note trace).file.aliases.get? name = c.file.aliases.get? name := rfl
      simp only [enter, placeAlias, hsame]
      cases c.file.aliases.get? name <;> rfl
  | .value _ typeName _ =>
      have hsame : (c.note trace).file.aliases.get? typeName = c.file.aliases.get? typeName := rfl
      simp only [enter, addValue, hsame]
      cases c.file.aliases.get? typeName <;> rfl
  | .nothing => rfl

end Collector

namespace Decl

theorem fault?_traces_cons {decl : Decl} {rest : List Decl}
    (hnone : Trace.fault? (traces (decl :: rest)) = none) :
    Trace.fault? decl.trace = none ∧ Trace.fault? (traces rest) = none := by
  rw [traces, List.flatMap_cons, Trace.fault?_append, Option.or_eq_none_iff] at hnone
  exact hnone

end Decl

namespace Collector

variable {c : Collector} {decls : List Decl}

/-- Without a fault, taking in declarations is making all their marks and reports and
then entering what they say. -/
theorem steps_add (hnone : Trace.fault? (Decl.traces decls) = none) :
    c.steps (decls.map .add) = (c.note (Decl.traces decls)).enterAll (decls.map Decl.entry) := by
  induction decls generalizing c with
  | nil => exact (note_nil c).symm
  | cons decl rest ih =>
      obtain ⟨hdecl, hrest⟩ := Decl.fault?_traces_cons hnone
      have hstep : c.step (.add decl) = (c.note decl.trace).enter decl.entry := by
        rw [step_eq]
        exact take_of_none hdecl
      calc c.steps ((decl :: rest).map .add)
          = (c.step (.add decl)).steps (rest.map .add) := rfl
        _ = (((c.note decl.trace).enter decl.entry).note (Decl.traces rest)).enterAll
              (rest.map Decl.entry) := by rw [ih hrest, hstep]
        -- The marks and reports of the rest move before the first entry.
        _ = (((c.note decl.trace).note (Decl.traces rest)).enter decl.entry).enterAll
              (rest.map Decl.entry) := by rw [note_enter]
        _ = _ := by
            rw [← note_append hdecl]
            rfl

/-! ## Success -/

/-- Taking in declarations fails with the first fault in them. -/
theorem addAll_fst (c : Collector) (decls : List Decl) :
    (c.addAll decls).1 = Trace.outcome (Decl.traces decls) () := by
  induction decls generalizing c with
  | nil => rfl
  | cons decl rest ih =>
      simp only [addAll, add_eq, Decl.traces, List.flatMap_cons]
      cases hfault : Trace.fault? decl.trace with
      | some fault => rw [Trace.outcome_of_fault hfault, Trace.outcome_append_of_fault hfault]
      | none =>
          rw [Trace.outcome_of_none hfault, Trace.outcome_append hfault]
          exact ih _

theorem addAll_snd (hnone : Trace.fault? (Decl.traces decls) = none) :
    (c.addAll decls).2 = c.steps (decls.map .add) := by
  induction decls generalizing c with
  | nil => rfl
  | cons decl rest ih =>
      obtain ⟨hdecl, hrest⟩ := Decl.fault?_traces_cons hnone
      have hstep : c.step (.add decl) = (c.add decl).2 := rfl
      rw [List.map_cons, steps, List.foldl_cons, ← steps, hstep, ← ih hrest]
      simp only [addAll, add_eq, Trace.outcome_of_none hdecl]

end Collector

/-- Collecting a file succeeds exactly if its imports can be read and there is no fault in
its declarations, and then it gives what taking them all in gives. -/
theorem GoFile.collect_eq (name : String) (file : GoFile) :
    file.collect name = (Collector.start name file.imports).bind fun c =>
      Trace.outcome (Decl.traces file.decls) (c.steps (file.decls.map .add)).finish := by
  unfold GoFile.collect
  cases Collector.start name file.imports with
  | error fault => rfl
  | ok c =>
      simp only [Except.bind]
      cases hfault : Trace.fault? (Decl.traces file.decls) with
      | some fault =>
          have hadd : c.addAll file.decls = (.error fault, (c.addAll file.decls).2) :=
            Prod.ext ((c.addAll_fst file.decls).trans (Trace.outcome_of_fault hfault)) rfl
          rw [hadd, Trace.outcome_of_fault hfault]
      | none =>
          have hadd : c.addAll file.decls = (.ok (), c.steps (file.decls.map .add)) :=
            Prod.ext ((c.addAll_fst file.decls).trans (Trace.outcome_of_none hfault))
              (Collector.addAll_snd hfault)
          rw [hadd, Trace.outcome_of_none hfault]

theorem GoFile.collect_eq_ok_iff {name : String} {file : GoFile} {collected : Collected} :
    file.collect name = .ok collected ↔ ∃ c, Collector.start name file.imports = .ok c ∧
      Trace.fault? (Decl.traces file.decls) = none ∧
        (c.steps (file.decls.map .add)).finish = collected := by
  rw [GoFile.collect_eq]
  cases Collector.start name file.imports with
  | error fault =>
      constructor
      · intro hcollect
        cases hcollect
      · rintro ⟨c, hstart, -⟩
        cases hstart
  | ok c =>
      simp only [Except.bind, Except.ok.injEq, exists_eq_left', Trace.outcome]
      cases Trace.fault? (Decl.traces file.decls) <;> simp

end GoAtlas
