import GoAtlas.Proofs.Collect.Balance
import GoAtlas.Proofs.Collect.Whole

/-!
# Forward references

A file says the same wherever its aliases stand among the constants that enumerate their
values, and in general under every reordering that keeps the constants in order and the
declarations of one type name in order (`Decl.Reordering`).

There is no argument about swapping two declarations.  Instead, everything in the model of
a file is read off from a part of the declarations that a reordering keeps: the marks
and reports from the events in the traces, which are the same up to order; the values of
aliases and those pending from the ledger of the constants; and the rest, name by name,
from the declarations of that name (`Collector.known_enterAll`).
-/

namespace GoAtlas

namespace Decl

def isConst : Decl → Bool
  | .const _ => true
  | _ => false

def declaresType (name : String) : Decl → Bool
  | .type decl => decl.name == name
  | _ => false

/-- The second list has the declarations of the first, the constants in the same order
and the declarations of each type name in the same order. -/
structure Reordering (first second : List Decl) : Prop where
  perm : first.Perm second
  constants : first.filter isConst = second.filter isConst
  types : ∀ name, first.filter (declaresType name) = second.filter (declaresType name)

end Decl

/-! ## What is known of a type name -/

/-- What is known of a type name, the values of an alias apart. -/
structure Known where
  struct? : Option StructModel
  interface? : Option InterfaceModel
  alias? : Option (String × GoType)

/-- What is known of the type `name` after an entry. -/
def Entry.learn (name : String) : Entry → Known → Known
  | .struct model, known =>
      if name = model.name then { known with struct? := some model } else known
  | .interface other, known =>
      if name = other then { known with interface? := some ⟨other⟩ } else known
  | .alias other target, known =>
      if name = other then
        { known with alias? := some ((known.alias?.map Prod.fst).getD other, target) }
      else known
  | _, known => known

namespace Collector

variable {c : Collector}

/-- What a collector knows of a type name, the values of an alias apart. -/
def known (c : Collector) (name : String) : Known where
  struct? := c.file.structs.get? name
  interface? := c.file.interfaces.get? name
  alias? := (c.file.aliases.get? name).map fun known => (known.name, known.target)

theorem known_placeAlias (c : Collector) (other : String) (target : GoType) (name : String) :
    (c.placeAlias other target).2.known name =
      (Entry.alias other target).learn name (c.known name) := by
  unfold placeAlias
  cases hget : c.file.aliases.get? other with
  | none =>
      simp only [known, Entry.learn, Table.get?_insert]
      by_cases hname : name = other
      · subst hname
        simp [hget]
      · simp [hname]
  | some found =>
      simp only [known, Entry.learn, Table.get?_insert]
      by_cases hname : name = other
      · subst hname
        simp [hget]
      · simp [hname]

theorem known_addValue (c : Collector) (decl : ConstDecl) (typeName literal name : String) :
    (c.addValue decl typeName literal).2.known name = c.known name := by
  unfold addValue
  cases hget : c.file.aliases.get? typeName with
  | none => rfl
  | some found =>
      simp only [known, Table.get?_insert]
      by_cases hname : name = typeName
      · subst hname
        simp [hget]
      · simp [hname]

theorem known_enter (c : Collector) (entry : Entry) (name : String) :
    (c.enter entry).known name = entry.learn name (c.known name) := by
  match entry with
  | .struct model =>
      simp only [enter, known, Entry.learn, Table.get?_insert]
      split <;> rfl
  | .interface other =>
      simp only [enter, known, Entry.learn, Table.get?_insert]
      split <;> rfl
  | .alias other target => exact known_placeAlias c other target name
  | .value decl typeName literal => exact known_addValue c decl typeName literal name
  | .nothing => rfl

end Collector

/-- A declaration says nothing of other type names than the one it declares. -/
theorem Decl.learn_entry_of_not {decl : Decl} {name : String}
    (hother : decl.declaresType name = false) (known : Known) :
    decl.entry.learn name known = known := by
  match decl with
  | .func decl =>
      rw [Decl.entry_func]
      rfl
  | .const decl =>
      rw [Decl.entry_const]
      unfold ConstDecl.entry
      cases decl.reading <;> rfl
  | .type decl =>
      have hname : name ≠ decl.name := fun heq => by simp [declaresType, heq] at hother
      rcases Decl.type_cases decl with ⟨hentry, -⟩ | ⟨hentry, -⟩ | ⟨hentry, -⟩ | ⟨hentry, -⟩ <;>
        simp [hentry, Entry.learn, TypeDecl.structModel, hname]

namespace Collector

/-- What is known of a type name after declarations is determined by those that declare
it. -/
theorem known_enterAll (c : Collector) (decls : List Decl) (name : String) :
    (c.enterAll (decls.map Decl.entry)).known name =
      (decls.filter (Decl.declaresType name)).foldl
        (fun known decl => decl.entry.learn name known) (c.known name) := by
  induction decls generalizing c with
  | nil => rfl
  | cons decl rest ih =>
      rw [List.map_cons, enterAll, List.foldl_cons, ← enterAll, ih, known_enter]
      cases hdeclares : decl.declaresType name with
      | true => rw [List.filter_cons_of_pos hdeclares, List.foldl_cons]
      | false =>
          rw [List.filter_cons_of_neg (by simp [hdeclares]), Decl.learn_entry_of_not hdeclares]

end Collector

attribute [ext] FileModel Alias

/-! ## Two orders of the same declarations -/

namespace Decl.Reordering

variable {first second : List Decl} {c : Collector}

theorem perm_traces (hreordering : Reordering first second) :
    (traces first).Perm (traces second) :=
  hreordering.perm.flatMap_right _

theorem fault?_traces (hreordering : Reordering first second) :
    Trace.fault? (traces first) = none ↔ Trace.fault? (traces second) = none := by
  rw [Trace.fault?_eq_none_iff, Trace.fault?_eq_none_iff]
  exact forall_congr' fun fault => not_congr hreordering.perm_traces.mem_iff

theorem imports_note (hreordering : Reordering first second)
    (hnone : Trace.fault? (traces first) = none) :
    (c.note (traces first)).file.imports = (c.note (traces second)).file.imports := by
  refine Table.ext_get? fun key => ?_
  have hneeds : key ∈ Trace.needs (traces first) ↔ key ∈ Trace.needs (traces second) := by
    rw [Trace.mem_needs hnone, Trace.mem_needs (hreordering.fault?_traces.mp hnone)]
    exact hreordering.perm_traces.mem_iff
  simp only [Collector.note, ImportTable.get?_needAll, hneeds]

theorem diagnostics_note (hreordering : Reordering first second)
    (hnone : Trace.fault? (traces first) = none) :
    (c.note (traces first)).diagnostics.Perm (c.note (traces second)).diagnostics := by
  refine List.Perm.append_left _ ?_
  rw [Trace.reports_eq_filterMap hnone,
    Trace.reports_eq_filterMap (hreordering.fault?_traces.mp hnone)]
  exact hreordering.perm_traces.filterMap _

theorem constants_eq (hreordering : Reordering first second) :
    (first.map Collector.Step.add).filterMap Collector.Step.constant? =
      (second.map Collector.Step.add).filterMap Collector.Step.constant? := by
  have hconstants : ∀ decls : List Decl,
      (decls.map Collector.Step.add).filterMap Collector.Step.constant? =
        (decls.filter isConst).filterMap (Collector.Step.constant? ∘ Collector.Step.add) := by
    intro decls
    rw [List.filterMap_map, List.filterMap_filter]
    refine List.filterMap_congr fun decl _ => ?_
    cases decl <;> rfl
  rw [hconstants, hconstants, hreordering.constants]

theorem known_eq (hreordering : Reordering first second)
    (hnone : Trace.fault? (traces first) = none) (name : String) :
    (c.steps (first.map .add)).known name = (c.steps (second.map .add)).known name := by
  rw [Collector.steps_add hnone, Collector.steps_add (hreordering.fault?_traces.mp hnone),
    Collector.known_enterAll, Collector.known_enterAll, hreordering.types name]
  rfl

end Decl.Reordering

namespace Collector

variable {c c' : Collector} {records : List Recorded}

/-- Aliases with the same names and targets and the same records are the same. -/
theorem Keeps.aliases_eq (hkeeps : c.Keeps records) (hkeeps' : c'.Keeps records)
    (hknown : ∀ name, c.known name = c'.known name) : c.file.aliases = c'.file.aliases := by
  refine Table.ext_get? fun name => ?_
  have halias : (c.file.aliases.get? name).map (fun known => (known.name, known.target)) =
      (c'.file.aliases.get? name).map fun known => (known.name, known.target) :=
    congrArg Known.alias? (hknown name)
  cases hget : c.file.aliases.get? name with
  | none =>
      cases hget' : c'.file.aliases.get? name with
      | none => rfl
      | some found' =>
          rw [hget, hget'] at halias
          cases halias
  | some found =>
      cases hget' : c'.file.aliases.get? name with
      | none =>
          rw [hget, hget'] at halias
          cases halias
      | some found' =>
          rw [hget, hget', Option.map_some, Option.map_some, Option.some_inj,
            Prod.mk.injEq] at halias
          -- Name and target agree, and the records determine the values.
          have hholds := hkeeps.aliases name found hget
          have hholds' := hkeeps'.aliases name found' hget'
          rw [Alias.ext halias.1 halias.2 (hholds.candidates.trans hholds'.candidates.symm)
            (hholds.sources.trans hholds'.sources.symm)]

theorem file_eq_of_reordering {first second : List Decl}
    (hreordering : Decl.Reordering first second)
    (hnone : Trace.fault? (Decl.traces first) = none) (hkeeps : c.Keeps (ledger [])) :
    (c.steps (first.map .add)).file = (c.steps (second.map .add)).file := by
  have hnone' := hreordering.fault?_traces.mp hnone
  have hknown := fun name => hreordering.known_eq (c := c) hnone name
  have hkeeps₁ := keeps_steps hkeeps (first.map .add)
  have hkeeps₂ := keeps_steps hkeeps (second.map .add)
  rw [hreordering.constants_eq] at hkeeps₁
  -- Both runs keep the ledger of the same constants.
  have haliases := hkeeps₁.aliases_eq hkeeps₂ hknown
  have hstructs : (c.steps (first.map .add)).file.structs =
      (c.steps (second.map .add)).file.structs :=
    Table.ext_get? fun name => congrArg Known.struct? (hknown name)
  have hinterfaces : (c.steps (first.map .add)).file.interfaces =
      (c.steps (second.map .add)).file.interfaces :=
    Table.ext_get? fun name => congrArg Known.interface? (hknown name)
  have hpending : (c.steps (first.map .add)).file.pending =
      (c.steps (second.map .add)).file.pending := by
    rw [hkeeps₁.pending, hkeeps₂.pending, haliases]
  -- Imports are what the traces leave, since entries do not touch them.
  have hnotes₁ := sameNotes_enterAll (c.note (Decl.traces first)) (first.map Decl.entry)
  have hnotes₂ := sameNotes_enterAll (c.note (Decl.traces second)) (second.map Decl.entry)
  rw [← steps_add hnone] at hnotes₁
  rw [← steps_add hnone'] at hnotes₂
  have hname : (c.steps (first.map .add)).file.name = (c.steps (second.map .add)).file.name :=
    hnotes₁.name.trans hnotes₂.name.symm
  have himports : (c.steps (first.map .add)).file.imports =
      (c.steps (second.map .add)).file.imports := by
    rw [hnotes₁.imports, hnotes₂.imports, hreordering.imports_note hnone]
  exact FileModel.ext hname haliases hstructs hinterfaces himports hpending

end Collector

/-- **A file says the same in every order** that keeps the constants in order and the
declarations of each type name in order: it is collected or not as before, and if it is,
the model is the same and the reports are the same up to order. -/
theorem GoFile.collect_reordered {file : GoFile} {decls : List Decl}
    (hreordering : Decl.Reordering file.decls decls) (name : String) :
    ((∃ collected, file.collect name = .ok collected) ↔
      ∃ collected, { file with decls }.collect name = .ok collected) ∧
    ∀ first second, file.collect name = .ok first →
      { file with decls }.collect name = .ok second →
        first.file = second.file ∧ first.diagnostics.Perm second.diagnostics := by
  constructor
  · simp only [GoFile.collect_eq_ok_iff, hreordering.fault?_traces]
    constructor
    · rintro ⟨-, c, hstart, hnone, -⟩
      exact ⟨_, c, hstart, hnone, rfl⟩
    · rintro ⟨-, c, hstart, hnone, -⟩
      exact ⟨_, c, hstart, hnone, rfl⟩
  · intro first second hfirst hsecond
    obtain ⟨c, hstart, hnone, rfl⟩ := GoFile.collect_eq_ok_iff.mp hfirst
    obtain ⟨c', hstart', hnone', rfl⟩ := GoFile.collect_eq_ok_iff.mp hsecond
    obtain rfl : c = c' := Except.ok.inj (hstart.symm.trans hstart')
    have hkeeps := Collector.keeps_start hstart
    constructor
    · rw [(Collector.keeps_steps hkeeps _).finish_file,
        (Collector.keeps_steps hkeeps _).finish_file]
      exact Collector.file_eq_of_reordering hreordering hnone hkeeps
    · have hnotes := Collector.sameNotes_enterAll (c.note (Decl.traces file.decls))
        (file.decls.map Decl.entry)
      have hnotes' := Collector.sameNotes_enterAll (c.note (Decl.traces decls))
        (decls.map Decl.entry)
      simp only [Collector.finish, Collector.steps_add hnone, Collector.steps_add hnone',
        hnotes.diagnostics, hnotes'.diagnostics]
      exact hreordering.diagnostics_note hnone

/-- A constant before its alias, which is declared twice, and a struct with a field of an
imported type. -/
def GoFile.forward : GoFile where
  package := "p"
  imports := [⟨"\"time\"", none⟩]
  decls := [
    .const (Collector.typedConstant "Red" "Color" "1"),
    .type ⟨"Box", .struct [⟨["At"], .selector "time" "Time", some "`json`"⟩] false⟩,
    .type ⟨"Color", .ident "string"⟩, .type ⟨"Color", .ident "int"⟩]

/-- The declarations of `GoFile.forward` with the alias first. -/
def GoFile.aliasFirst : List Decl :=
  GoFile.forward.decls.drop 2 ++ GoFile.forward.decls.take 2

theorem GoFile.forward_reordering : Decl.Reordering GoFile.forward.decls GoFile.aliasFirst where
  perm := @List.perm_append_comm _ (GoFile.forward.decls.take 2) (GoFile.forward.decls.drop 2)
  constants := rfl
  types := by
    intro name
    by_cases hbox : "Box" = name
    · subst hbox
      rfl
    · simp [GoFile.forward, GoFile.aliasFirst, List.filter_cons, Decl.declaresType, hbox]

theorem GoFile.collect_reordered_forward :
    Decl.Reordering GoFile.forward.decls GoFile.aliasFirst ∧
      ∃ first second, GoFile.forward.collect "a.go" = .ok first ∧
        { GoFile.forward with decls := GoFile.aliasFirst }.collect "a.go" = .ok second ∧
        first.file.pending = [] ∧ first.file = second.file ∧
        first.diagnostics.Perm second.diagnostics := by
  obtain ⟨hiff, hsame⟩ := GoFile.collect_reordered GoFile.forward_reordering "a.go"
  have hpending : (GoFile.forward.collect "a.go").toOption.map (·.file.pending) = some [] := by
    decide +kernel
  cases hfirst : GoFile.forward.collect "a.go" with
  | error fault =>
      rw [hfirst] at hpending
      cases hpending
  | ok first =>
      rw [hfirst] at hpending
      obtain ⟨second, hsecond⟩ := hiff.mp ⟨first, hfirst⟩
      obtain ⟨hfile, hdiagnostics⟩ := hsame first second hfirst hsecond
      exact ⟨GoFile.forward_reordering, first, second, rfl, hsecond, Option.some.inj hpending,
        hfile, hdiagnostics⟩

end GoAtlas
