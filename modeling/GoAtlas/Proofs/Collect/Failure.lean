import GoAtlas.Proofs.Collect.Flaws

/-!
# What a failed operation leaves behind

An operation of a collector can fail in the middle of a declaration, after it has marked
imports and reported on tags.  Nothing else has happened by then (`Collector.attempt_failed`):
all that has been collected is as it was, and so are the imports apart from marks.

Of the reports it can be told which they are.  They concern the members of a struct before the
one that is at fault, and that member itself only if all that it lacks is a name, because its
name is asked for after its tag has been read (`Collector.attempt_nameless`).
-/

namespace GoAtlas

/-! ## Operations with their outcomes -/

namespace Collector

/-- An operation and how it ends. -/
def attempt (c : Collector) : Step → Except Fault Unit × Collector
  | .add decl => c.add decl
  | .struct decl => done (c.addStruct decl)
  | .interface decl => (.ok (), (c.addInterface decl).2)
  | .alias decl => done (c.addAlias decl)
  | .value decl => (.ok (), (c.addConst decl).2)

/-- The collector after an attempt is the one after the operation. -/
theorem attempt_snd (c : Collector) (step : Step) : (c.attempt step).2 = c.step step := by
  match step with
  | .struct decl =>
      simp only [attempt, Collector.step]
      rcases c.addStruct decl with ⟨_ | _, _⟩ <;> rfl
  | .alias decl =>
      simp only [attempt, Collector.step]
      rcases c.addAlias decl with ⟨_ | _, _⟩ <;> rfl
  | .add _ | .interface _ | .value _ => rfl

theorem attempt_fst (c : Collector) (step : Step) :
    (c.attempt step).1 = Trace.outcome step.trace () := by
  match step with
  | .add decl => simp only [attempt, add_eq, Step.trace]
  | .struct decl => simp only [attempt, addStruct_eq, done_outcome, Step.trace]
  | .interface decl => rfl
  | .alias decl => simp only [attempt, addAlias_eq, done_outcome, Step.trace]
  | .value decl => simp only [attempt, Step.trace, Trace.outcome_of_none (fault?_constTrace decl)]

variable {c c' : Collector} {step : Step} {fault : Fault}

/-- An operation that fails does nothing but to let its trace take effect. -/
theorem attempt_eq_error_iff :
    c.attempt step = (.error fault, c') ↔
      Trace.fault? step.trace = some fault ∧ c' = c.note step.trace := by
  rw [Prod.ext_iff, attempt_fst, attempt_snd, step_eq]
  cases hfault : Trace.fault? step.trace with
  | none => simp [Trace.outcome_of_none hfault]
  | some other => simp [Trace.outcome_of_fault hfault, take_of_fault hfault, eq_comm]

end Collector

/-! ## What stays -/

/-- The second table has the imports of the first under the same names, and every mark of the
first. -/
structure ImportTable.OnlyMarked (imports marked : ImportTable) : Prop where
  keys : marked.keys = imports.keys
  entries : ∀ key entry, imports.get? key = some entry → ∃ entry', marked.get? key = some entry' ∧
    entry'.name = entry.name ∧ entry'.fullName = entry.fullName ∧
    (entry.needed = true → entry'.needed = true)

theorem ImportTable.onlyMarked_needAll (imports : ImportTable) (names : List String) :
    imports.OnlyMarked (imports.needAll names) := by
  refine ⟨keys_needAll imports names, fun key entry hentry => ?_⟩
  refine ⟨if key ∈ names then { entry with needed := true } else entry, ?_, ?_⟩
  · rw [get?_needAll, hentry, Option.map_some]
  · split <;> simp

/-- What has been collected is the same, and imports differ at most in their marks. -/
structure Collector.Intact (c c' : Collector) : Prop where
  name : c'.file.name = c.file.name
  structs : c'.file.structs = c.file.structs
  interfaces : c'.file.interfaces = c.file.interfaces
  aliases : c'.file.aliases = c.file.aliases
  pending : c'.file.pending = c.file.pending
  waiting : c'.waiting = c.waiting
  lastSeq : c'.lastSeq = c.lastSeq
  imports : c.file.imports.OnlyMarked c'.file.imports

theorem Collector.intact_note (c : Collector) (trace : Trace) : c.Intact (c.note trace) :=
  ⟨rfl, rfl, rfl, rfl, rfl, rfl, rfl, ImportTable.onlyMarked_needAll _ _⟩

/-! ## What is reported -/

/-- The reports on a member of the struct `owner`: one for each malformed pair of its tag. -/
def Member.tagReports (file owner : String) (member : FieldDecl) : List Diagnostic :=
  match member.tag.map Tags.read with
  | some (.ok tags) => tags.malformed.map fun bad =>
      ⟨file, owner ++ "." ++ bad.key, .malformedTag,
        "scan tags failure " ++ bad.raw ++ ": " ++ bad.reason.message⟩
  | _ => []

/-- An embedded field has no name. -/
def Fault.isNameless : Fault → Bool
  | .missingEmbeddedName _ => true
  | _ => false

namespace Member

variable {owner : String} {member : FieldDecl} {fault : Fault}

theorem reports_tagTrace (file owner : String) (member : FieldDecl) :
    Trace.reports file (Collector.tagTrace owner member.tag) = member.tagReports file owner := by
  unfold tagReports Collector.tagTrace
  cases member.tag with
  | none => rfl
  | some literal =>
      simp only [Option.map_some]
      cases Tags.read literal with
      | error fault => rfl
      | ok tags =>
          rw [Trace.reports_eq_filterMap (Collector.fault?_malformed owner tags.malformed),
            List.filterMap_map, ← List.filterMap_eq_map]
          rfl

theorem reports_nameTrace (file owner : String) (member : FieldDecl) :
    Trace.reports file (Collector.nameTrace owner member) = [] := by
  unfold Collector.nameTrace
  split <;> rfl

/-- Once the type of a member is sound, the reports on it are those on its tag. -/
theorem reports_memberTrace (file owner : String) (htype : ¬ member.type.IsFlawed) :
    Trace.reports file (Collector.memberTrace owner member) = member.tagReports file owner := by
  rw [Collector.memberTrace, Trace.reports_append (TypeExpr.fault?_trace_eq_none_iff.mpr htype),
    TypeExpr.reports_trace, List.nil_append, ← reports_tagTrace]
  cases htag : Trace.fault? (Collector.tagTrace owner member.tag) with
  | some fault => rw [Trace.reports_append_of_fault htag]
  | none => rw [Trace.reports_append htag, reports_nameTrace, List.append_nil]

/-- The member at fault is reported on only if it has no name. -/
theorem FirstFlaw.reports (hflaw : FirstFlaw owner member fault) (file : String) :
    Trace.reports file (Collector.memberTrace owner member) =
      if fault.isNameless then member.tagReports file owner else [] := by
  cases hflaw with
  | @type fault hflaw =>
      obtain ⟨node, -, hnode⟩ := List.mem_filterMap.mp (List.mem_of_head? hflaw)
      have hfault : Trace.fault? member.type.trace = some fault :=
        (TypeExpr.fault?_trace _).trans hflaw
      rw [Collector.memberTrace, Trace.reports_append_of_fault hfault, TypeExpr.reports_trace]
      rcases TypeExpr.flaw?_eq_some_iff.mp hnode with ⟨_, -, rfl⟩ | ⟨_, -, rfl⟩ <;> rfl
  | @tag literal fault htype htag hread =>
      have hnone : member.tagReports file owner = [] := by
        simp [tagReports, htag, Tags.read, hread]
      rw [reports_memberTrace file owner htype, hnone]
      simp
  | name htype htag hnames hnamed => exact reports_memberTrace file owner htype

end Member

/-! ## How far a failed operation has read -/

/-- The members that a declaration is made up of if it is that of a complete struct. -/
def TypeDecl.members (decl : TypeDecl) : List FieldDecl :=
  match decl.expr with
  | .struct members false => members
  | _ => []

namespace Collector

namespace Step

/-- The members of the struct that an operation takes in. -/
def members : Step → List FieldDecl
  | .add (.type decl) | .struct decl => decl.members
  | .add (.const _) | .add (.func _) | .interface _ | .alias _ | .value _ => []

/-- The name that an operation is about. -/
def name : Step → String
  | .add decl => decl.name
  | .struct decl | .interface decl | .alias decl => decl.name
  | .value decl => decl.name

end Step

/-- An operation that fails at the struct `owner` has read the tags of the members `read`: of
those before the first one that is flawed, and of that one too if it is its name that is
missing. -/
inductive HasRead (owner : String) (fault : Fault) : (members read : List FieldDecl) → Prop
  | nothing : HasRead owner fault [] []
  | upTo {before after : List FieldDecl} {member : FieldDecl}
      (hbefore : ∀ earlier ∈ before, ¬ Member.IsFlawed earlier)
      (hflaw : Member.FirstFlaw owner member fault) :
      HasRead owner fault (before ++ member :: after)
        (if fault.isNameless then before ++ [member] else before)

variable {owner : String} {members read : List FieldDecl} {fault : Fault}

theorem reports_memberTraces (file : String)
    (hsound : ∀ member ∈ members, ¬ Member.IsFlawed member) :
    Trace.reports file (members.flatMap (memberTrace owner)) =
      members.flatMap (Member.tagReports file owner) := by
  induction members with
  | nil => rfl
  | cons member rest ih =>
      rw [List.forall_mem_cons] at hsound
      rw [List.flatMap_cons, List.flatMap_cons,
        Trace.reports_append (Member.fault?_eq_none_iff.mpr hsound.1), ih hsound.2,
        Member.reports_memberTrace file owner fun htype => hsound.1 (.type htype)]

/-- Members up to the first flaw are reported on as far as their tags have been read. -/
theorem exists_hasRead_members
    (hfault : Trace.fault? (members.flatMap (memberTrace owner)) = some fault) :
    ∃ read, HasRead owner fault members read ∧
      ∀ file, Trace.reports file (members.flatMap (memberTrace owner)) =
        read.flatMap (Member.tagReports file owner) := by
  simp only [Trace.fault?_flatMap_eq_some_iff, Member.fault?_eq_none_iff,
    Member.fault?_eq_some_iff] at hfault
  obtain ⟨before, member, after, rfl, hbefore, hflaw⟩ := hfault
  refine ⟨_, .upTo hbefore hflaw, fun file => ?_⟩
  -- The members before the flaw have left no fault, so their reports are all made; those after
  -- it are not reached.
  have hsound : Trace.fault? (before.flatMap (memberTrace owner)) = none :=
    Trace.fault?_flatMap_eq_none_iff.mpr fun earlier hearlier =>
      Member.fault?_eq_none_iff.mpr (hbefore earlier hearlier)
  rw [List.flatMap_append, List.flatMap_cons, Trace.reports_append hsound,
    Trace.reports_append_of_fault (Member.fault?_eq_some_iff.mpr hflaw),
    reports_memberTraces file hbefore, hflaw.reports]
  split <;> simp

theorem exists_hasRead_structTrace {decl : TypeDecl}
    (hfault : Trace.fault? decl.structTrace = some fault) :
    ∃ read, HasRead decl.name fault decl.members read ∧
      ∀ file, Trace.reports file decl.structTrace =
        read.flatMap (Member.tagReports file decl.name) := by
  obtain ⟨name, expr⟩ := decl
  cases expr with
  | struct members incomplete =>
      cases incomplete with
      | true => exact ⟨[], .nothing, fun _ => rfl⟩
      | false => exact exists_hasRead_members hfault
  | _ => exact ⟨[], .nothing, fun _ => rfl⟩

/-- A failed operation reports on the members that it has read, and on nothing else. -/
theorem exists_hasRead {step : Step} (hfault : Trace.fault? step.trace = some fault) :
    ∃ read, HasRead step.name fault step.members read ∧
      ∀ file, Trace.reports file step.trace = read.flatMap (Member.tagReports file step.name) := by
  match step with
  | .struct decl => exact exists_hasRead_structTrace hfault
  -- Types alone are never reported on.
  | .alias decl => exact ⟨[], .nothing, fun file => TypeExpr.reports_trace file decl.expr⟩
  | .interface decl => cases hfault
  | .value decl => simp [Step.trace, fault?_constTrace] at hfault
  | .add (.const decl) => simp [Step.trace, Decl.trace_const, fault?_constTrace] at hfault
  | .add (.func decl) => simp [Step.trace, Decl.trace_func, Trace.fault?] at hfault
  | .add (.type decl) =>
      simp only [Step.trace, Decl.trace_type] at hfault ⊢
      split at hfault
      case isFalse => cases hfault
      case isTrue hexported =>
        rw [if_pos hexported]
        obtain ⟨name, expr⟩ := decl
        cases expr with
        | struct members incomplete => exact exists_hasRead_structTrace hfault
        | ident _ | selector _ _ | array _ | map _ _ | pointer _ =>
            exact ⟨[], .nothing, fun file => TypeExpr.reports_trace file _⟩
        | interface _ | func _ _ | chan _ _ | ellipsis _ | unsupported _ => cases hfault

/-- **A failed operation leaves the model intact.**  Whatever a collector has gathered when an
operation fails is as it was before, with the names of all imports; imports may have been marked,
and there are new reports on malformed tags, those of the members that had been read. -/
theorem attempt_failed {c c' : Collector} {step : Step}
    (hfails : c.attempt step = (.error fault, c')) :
    c.Intact c' ∧
      ∃ read, HasRead step.name fault step.members read ∧
        c'.diagnostics =
          c.diagnostics ++ read.flatMap (Member.tagReports c.file.name step.name) := by
  obtain ⟨hfault, rfl⟩ := attempt_eq_error_iff.mp hfails
  obtain ⟨read, hread, hreports⟩ := exists_hasRead hfault
  refine ⟨intact_note c step.trace, read, hread, ?_⟩
  rw [← hreports]
  rfl

/-- Of three members the second is flawed; the tags of all three have a malformed pair. -/
def halfway : Step :=
  .struct ⟨"Box", .struct [
    ⟨["At"], .selector "time" "Time", some "`json:\"at\" x:\"\\q\"`"⟩,
    ⟨["Next"], .map (.selector "io" "Reader") (.unsupported "paren"), some "`y:\"\\q\"`"⟩,
    ⟨["Open"], .ident "bool", some "`z:\"\\q\"`"⟩] false⟩

theorem attempt_failed_halfway :
    ∃ c c' : Collector, c.attempt halfway = (.error (.unsupportedType "paren"), c') ∧
      c.Intact c' ∧
      (∃ read, HasRead "Box" (.unsupportedType "paren") halfway.members read ∧
        read.flatMap (Member.tagReports "a.go" "Box") = c'.diagnostics) ∧
      c'.diagnostics.map (·.subject) = ["Box.x"] ∧
      (c.file.imports.values ++ c'.file.imports.values).map (·.needed) =
        [false, false, true, true] := by
  let c : Collector := {
    file := {
      name := "a.go"
      imports := (Table.empty.insert "time" ⟨"time", "time", false⟩).insert "io"
        ⟨"io", "io", false⟩ } }
  have hfails : c.attempt halfway = (.error (.unsupportedType "paren"), c.note halfway.trace) :=
    attempt_eq_error_iff.mpr ⟨by decide +kernel, rfl⟩
  obtain ⟨hintact, read, hread, hreports⟩ := attempt_failed hfails
  exact ⟨c, _, hfails, hintact, ⟨read, hread, hreports.symm⟩, by decide +kernel, by decide +kernel⟩

/-- The only member lacks a name, and its tag has a malformed pair. -/
def nameless : Step :=
  .struct ⟨"Box", .struct [⟨[], .array (.ident "int"), some "`x:\"\\q\"`"⟩] false⟩

/-- The reports may include ones on the member at fault, before which there is no other. -/
theorem attempt_nameless :
    ∃ c c' : Collector, c.attempt nameless = (.error (.missingEmbeddedName "array in Box"), c') ∧
      c.diagnostics = [] ∧ c'.diagnostics = [⟨"a.go", "Box.x", .malformedTag,
        "scan tags failure \"\\q\": Unquote error: unknown escape sequence \\q: \"\\q\""⟩] ∧
      ∀ before member after, nameless.members = before ++ member :: after → before = [] := by
  let c : Collector := { file := { name := "a.go" } }
  refine ⟨c, c.note nameless.trace, attempt_eq_error_iff.mpr ⟨by decide +kernel, rfl⟩, rfl,
    by decide +kernel, fun before member after hsplit => ?_⟩
  cases before with
  | nil => rfl
  | cons first rest => simp [nameless, Step.members, TypeDecl.members] at hsplit

end Collector

end GoAtlas
