import GoAtlas.Collect.Basic
import GoAtlas.Proofs.GoType.Trace

/-!
# Collecting is running traces

Taking in a declaration does two things to a collector.  On the way through the
declaration it marks imports and makes reports, up to the first fault; and if there is
no fault, it enters what the declaration says.  Neither what is met on the way nor what
is entered depends on the collector.  So a declaration is described by its trace and
its entry, and `Collector.add_eq` says that taking it in is letting the trace take
effect (`Collector.note`) and then entering the entry (`Collector.enter`).

The same holds of each operation by itself, where it need not be applied to a
declaration in the role it is meant for (`Collector.step_eq`).
-/

namespace GoAtlas

/-- What a declaration says, once nothing in it is at fault. -/
inductive Entry where
  | struct (model : StructModel)
  | interface (name : String)
  | alias (name : String) (target : GoType)
  | value (decl : ConstDecl) (typeName literal : String)
  | nothing
deriving Repr

namespace Collector

/-- Lets the events of a trace take effect, up to the first fault. -/
def note (c : Collector) (trace : Trace) : Collector :=
  { c with
    file := { c.file with imports := c.file.imports.needAll (Trace.needs trace) }
    diagnostics := c.diagnostics ++ Trace.reports c.file.name trace }

/-- Enters what a declaration says. -/
def enter (c : Collector) : Entry → Collector
  | .struct model =>
      { c with file := { c.file with structs := c.file.structs.insert model.name model } }
  | .interface name =>
      { c with file := { c.file with interfaces := c.file.interfaces.insert name ⟨name⟩ } }
  | .alias name target => (c.placeAlias name target).2
  | .value decl typeName literal => (c.addValue decl typeName literal).2
  | .nothing => c

/-- Takes in a declaration with the given trace and entry. -/
def take (c : Collector) (trace : Trace) (entry : Entry) : Collector :=
  match Trace.fault? trace with
  | none => (c.note trace).enter entry
  | some _ => c.note trace

variable {c : Collector} {first second : Trace} {fault : Fault}

theorem note_nil (c : Collector) : c.note [] = c := by
  simp [note, Trace.needs, Trace.reports, ImportTable.needAll]

theorem note_append (hnone : Trace.fault? first = none) :
    c.note (first ++ second) = (c.note first).note second := by
  simp [note, Trace.needs_append hnone, Trace.reports_append hnone, ImportTable.needAll_append]

theorem note_append_of_fault (hfault : Trace.fault? first = some fault) :
    c.note (first ++ second) = c.note first := by
  simp [note, Trace.needs_append_of_fault hfault, Trace.reports_append_of_fault hfault]

/-! ## Members of structs -/

/-- The report of a malformed pair in a tag of the struct `owner`. -/
def malformedEvent (owner : String) (bad : MalformedTag) : Event :=
  .report (owner ++ "." ++ bad.key) .malformedTag
    ("scan tags failure " ++ bad.raw ++ ": " ++ bad.reason.message)

def tagTrace (owner : String) : Option String → Trace
  | none => []
  | some literal =>
      match Tags.read literal with
      | .error fault => [.fault fault]
      | .ok tags => tags.malformed.map (malformedEvent owner)

def tagValues : Option String → Table (List String)
  | none => Table.empty
  | some literal =>
      match Tags.read literal with
      | .error _ => Table.empty
      | .ok tags => tags.values

theorem fault?_malformed (owner : String) (malformed : List MalformedTag) :
    Trace.fault? (malformed.map (malformedEvent owner)) = none := by
  induction malformed with
  | nil => rfl
  | cons bad rest ih => exact ih

theorem foldl_report (c : Collector) (owner : String) (malformed : List MalformedTag) :
    malformed.foldl (fun c bad => c.report (owner ++ "." ++ bad.key) .malformedTag
        ("scan tags failure " ++ bad.raw ++ ": " ++ bad.reason.message)) c =
      c.note (malformed.map (malformedEvent owner)) := by
  induction malformed generalizing c with
  | nil => exact (note_nil c).symm
  | cons bad rest ih =>
      rw [List.foldl_cons, ih]
      simp [note, report, malformedEvent, Trace.needs, Trace.reports]

theorem readTags_eq (c : Collector) (owner : String) (tag : Option String) :
    c.readTags owner tag =
      (Trace.outcome (tagTrace owner tag) (tagValues tag), c.note (tagTrace owner tag)) := by
  cases tag with
  | none => simp [readTags, tagTrace, tagValues, Trace.outcome, Trace.fault?, note_nil]
  | some literal =>
      simp only [readTags, tagTrace, tagValues]
      cases Tags.read literal with
      | error fault =>
          simp [Trace.outcome, Trace.fault?, note, Trace.needs, Trace.reports,
            ImportTable.needAll]
      | ok tags =>
          simp only [foldl_report]
          simp [Trace.outcome, fault?_malformed]

def nameTrace (owner : String) (member : FieldDecl) : Trace :=
  match fieldNames owner member with
  | .error fault => [.fault fault]
  | .ok _ => []

def memberTrace (owner : String) (member : FieldDecl) : Trace :=
  member.type.trace ++ (tagTrace owner member.tag ++ nameTrace owner member)

end Collector

/-- The names under which a member of a struct declares fields, and whether they are
embedded. -/
def Member.declared (member : FieldDecl) : List String × Bool :=
  match member.names with
  | [] => (member.type.innermost?.toList, true)
  | names => (names, false)

/-- The fields that a member of a struct declares if nothing in it is at fault. -/
def Member.fields (member : FieldDecl) : List StructField :=
  (Member.declared member).1.map fun name =>
    ⟨name, Collector.tagValues member.tag, member.type.shape, (Member.declared member).2⟩

namespace Collector

theorem withImports_trace (c : Collector) (expr : TypeExpr) :
    c.withImports (c.file.imports.needAll (Trace.needs expr.trace)) = c.note expr.trace := by
  simp [note, withImports, TypeExpr.reports_trace]

theorem memberFields_eq (c : Collector) (owner : String) (member : FieldDecl) :
    c.memberFields owner member =
      (Trace.outcome (memberTrace owner member) (Member.fields member),
        c.note (memberTrace owner member)) := by
  unfold memberFields memberTrace
  simp only [TypeExpr.resolve_eq, TypeExpr.settle]
  cases htype : Trace.fault? member.type.trace with
  | some fault =>
      rw [Trace.outcome_of_fault htype, Trace.outcome_append_of_fault htype,
        note_append_of_fault htype]
      simp only [withImports_trace]
  | none =>
      rw [Trace.outcome_of_none htype, Trace.outcome_append htype, note_append htype]
      simp only [withImports_trace, readTags_eq]
      cases htag : Trace.fault? (tagTrace owner member.tag) with
      | some fault =>
          rw [Trace.outcome_of_fault htag, Trace.outcome_append_of_fault htag,
            note_append_of_fault htag]
      | none =>
          rw [Trace.outcome_of_none htag, Trace.outcome_append htag, note_append htag]
          unfold nameTrace fieldNames Member.fields Member.declared
          cases member.names with
          | cons name rest => simp [Trace.outcome, Trace.fault?, note_nil]
          | nil =>
              cases member.type.innermost? with
              | some name => simp [Trace.outcome, Trace.fault?, note_nil]
              | none =>
                  simp [Trace.outcome, Trace.fault?, note, Trace.needs, Trace.reports,
                    ImportTable.needAll]

/-- The fields declared by members of a struct, after `fields`; of two fields of one name
the later one stays. -/
def insertFields (fields : Table StructField) (members : List FieldDecl) : Table StructField :=
  members.foldl (fun fields member =>
    (Member.fields member).foldl (fun fields field => fields.insert field.name field) fields) fields

theorem structFields_eq (c : Collector) (owner : String) (fields : Table StructField)
    (members : List FieldDecl) :
    c.structFields owner fields members =
      (Trace.outcome (members.flatMap (memberTrace owner)) (insertFields fields members),
        c.note (members.flatMap (memberTrace owner))) := by
  induction members generalizing c fields with
  | nil => simp [structFields, insertFields, Trace.outcome, Trace.fault?, note_nil]
  | cons member rest ih =>
      simp only [structFields, memberFields_eq, List.flatMap_cons]
      cases hmember : Trace.fault? (memberTrace owner member) with
      | some fault =>
          rw [Trace.outcome_of_fault hmember, Trace.outcome_append_of_fault hmember,
            note_append_of_fault hmember]
      | none =>
          rw [Trace.outcome_of_none hmember, Trace.outcome_append hmember, note_append hmember]
          simp only [ih, insertFields, List.foldl_cons]

end Collector

/-! ## The trace and the entry of each operation -/

namespace TypeDecl

/-- The events met in a declaration taken as a struct. -/
def structTrace (decl : TypeDecl) : Trace :=
  match decl.expr with
  | .struct _ true => [.fault (.incompleteStruct decl.name)]
  | .struct members false => members.flatMap (Collector.memberTrace decl.name)
  | expr => [.fault (.unsupportedType (decl.name ++ " is a " ++ expr.kindName ++ ", not a struct"))]

/-- The struct that a declaration declares. -/
def structModel (decl : TypeDecl) : StructModel where
  name := decl.name
  fields :=
    match decl.expr with
    | .struct members _ => Collector.insertFields Table.empty members
    | _ => Table.empty

end TypeDecl

namespace ConstDecl

def trace (decl : ConstDecl) : Trace :=
  match decl.reading with
  | .complex message => [.report decl.name .complexConstant message]
  | _ => []

def entry (decl : ConstDecl) : Entry :=
  match decl.reading with
  | .enumerates typeName literal => .value decl typeName literal
  | _ => .nothing

/-- A constant without exactly one initializer is no value of an alias. -/
theorem reading_eq_unrelated {decl : ConstDecl} (hvalues : decl.values.length ≠ 1) :
    decl.reading = .unrelated := by
  unfold reading
  split <;> simp_all

end ConstDecl

namespace Decl

/-- The events met in a declaration. -/
def trace (decl : Decl) : Trace :=
  match decl.role?, decl with
  | some .struct, .type decl => decl.structTrace
  | some .alias, .type decl => decl.expr.trace
  | some .aliasValue, .const decl => decl.trace
  | _, _ => []

/-- What a declaration says. -/
def entry (decl : Decl) : Entry :=
  match decl.role?, decl with
  | some .struct, .type decl => .struct decl.structModel
  | some .interface, .type decl => .interface decl.name
  | some .alias, .type decl => .alias decl.name decl.expr.shape
  | some .aliasValue, .const decl => decl.entry
  | _, _ => .nothing

theorem entry_func (decl : FuncDecl) : (Decl.func decl).entry = .nothing := by
  simp only [entry]
  cases (Decl.func decl).role? with
  | none => rfl
  | some role => cases role <;> rfl

/-- A constant says the same whether or not it is in the role of a value, because it says
nothing unless it has exactly one initializer. -/
theorem entry_const (decl : ConstDecl) : (Decl.const decl).entry = decl.entry := by
  by_cases hvalues : decl.values.length = 1
  · simp [Decl.entry, role?, isStruct, isInterface, isAlias, isExportedType, isAliasValue, hvalues]
  · simp [Decl.entry, role?, isStruct, isInterface, isAlias, isExportedType, isAliasValue, hvalues,
      ConstDecl.entry, ConstDecl.reading_eq_unrelated hvalues]

/-- What a declared type says and meets, in each of its roles. -/
theorem type_cases (decl : TypeDecl) :
    ((Decl.type decl).entry = .struct decl.structModel ∧
      (Decl.type decl).trace = decl.structTrace) ∨
    ((Decl.type decl).entry = .interface decl.name ∧ (Decl.type decl).trace = []) ∨
    ((Decl.type decl).entry = .alias decl.name decl.expr.shape ∧
      (Decl.type decl).trace = decl.expr.trace) ∨
    ((Decl.type decl).entry = .nothing ∧ (Decl.type decl).trace = []) := by
  simp only [entry, trace]
  cases (Decl.type decl).role? with
  | none => simp
  | some role => cases role <;> simp

end Decl

namespace Collector

theorem take_of_none {c : Collector} {trace : Trace} {entry : Entry}
    (hnone : Trace.fault? trace = none) : c.take trace entry = (c.note trace).enter entry := by
  rw [take, hnone]

theorem take_of_fault {c : Collector} {trace : Trace} {entry : Entry} {fault : Fault}
    (hfault : Trace.fault? trace = some fault) : c.take trace entry = c.note trace := by
  rw [take, hfault]

theorem take_fault (c : Collector) (entry : Entry) (fault : Fault) :
    c.take [.fault fault] entry = c := by
  rw [take_of_fault rfl]
  simp [note, Trace.needs, Trace.reports, ImportTable.needAll]

theorem addStruct_eq (c : Collector) (decl : TypeDecl) :
    c.addStruct decl = (Trace.outcome decl.structTrace decl.structModel,
      c.take decl.structTrace (.struct decl.structModel)) := by
  obtain ⟨name, expr⟩ := decl
  unfold addStruct TypeDecl.structTrace TypeDecl.structModel
  cases expr with
  | struct members incomplete =>
      cases incomplete with
      | true => simp [Trace.outcome, Trace.fault?, take_fault]
      | false =>
          simp only [structFields_eq]
          cases hfault : Trace.fault? (members.flatMap (memberTrace name)) with
          | some fault => rw [Trace.outcome_of_fault hfault, Trace.outcome_of_fault hfault,
              take_of_fault hfault]
          | none => rw [Trace.outcome_of_none hfault, Trace.outcome_of_none hfault,
              take_of_none hfault, enter]
  | _ => simp [Trace.outcome, Trace.fault?, take_fault]

theorem addAlias_eq (c : Collector) (decl : TypeDecl) :
    c.addAlias decl = (Trace.outcome decl.expr.trace
        ((c.note decl.expr.trace).placeAlias decl.name decl.expr.shape).1,
      c.take decl.expr.trace (.alias decl.name decl.expr.shape)) := by
  unfold addAlias
  simp only [TypeExpr.resolve_eq, TypeExpr.settle]
  cases hfault : Trace.fault? decl.expr.trace with
  | some fault =>
      rw [Trace.outcome_of_fault hfault, Trace.outcome_of_fault hfault, take_of_fault hfault]
      simp only [withImports_trace]
  | none =>
      rw [Trace.outcome_of_none hfault, Trace.outcome_of_none hfault, take_of_none hfault, enter]
      simp only [withImports_trace]

theorem addConst_snd (c : Collector) (decl : ConstDecl) :
    (c.addConst decl).2 = c.take decl.trace decl.entry := by
  unfold addConst ConstDecl.trace ConstDecl.entry
  cases decl.reading with
  | enumerates typeName literal => simp [take, Trace.fault?, note_nil, enter]
  | unrelated => simp [take, Trace.fault?, note_nil, enter]
  | complex message =>
      simp [take, Trace.fault?, enter, note, report, Trace.needs, Trace.reports,
        ImportTable.needAll]

theorem done_outcome {α : Type} (trace : Trace) (value : α) (c : Collector) :
    done (Trace.outcome trace value, c) = (Trace.outcome trace (), c) := by
  unfold Trace.outcome
  cases Trace.fault? trace <;> rfl

theorem fault?_constTrace (decl : ConstDecl) : Trace.fault? decl.trace = none := by
  unfold ConstDecl.trace
  split <;> rfl

/-- Taking in a declaration is running its trace and entering what it says. -/
theorem add_eq (c : Collector) (decl : Decl) :
    c.add decl = (Trace.outcome decl.trace (), c.take decl.trace decl.entry) := by
  have hnothing : c.take [] .nothing = c := by
    rw [take_of_none rfl, note_nil, enter]
  unfold add Decl.trace Decl.entry
  cases decl.role? with
  | none => simp [Trace.outcome, Trace.fault?, hnothing]
  | some role =>
      cases decl with
      | func decl => cases role <;> simp [Trace.outcome, Trace.fault?, hnothing]
      | const decl =>
          cases role with
          | aliasValue => simp [addConst_snd, Trace.outcome_of_none (fault?_constTrace decl)]
          | _ => simp [Trace.outcome, Trace.fault?, hnothing]
      | type decl =>
          cases role
          · simp only [addStruct_eq, done_outcome]
          · simp [Trace.outcome, Trace.fault?, addInterface, take, note_nil, enter]
          · simp only [addAlias_eq, done_outcome]
          · simp [Trace.outcome, Trace.fault?, hnothing]

/-! ## Operations -/

/-- An operation on a collector. -/
inductive Step where
  | add (decl : Decl)
  | struct (decl : TypeDecl)
  | interface (decl : TypeDecl)
  | alias (decl : TypeDecl)
  | value (decl : ConstDecl)

/-- The collector after an operation, whether it succeeds or not. -/
def step (c : Collector) : Step → Collector
  | .add decl => (c.add decl).2
  | .struct decl => (c.addStruct decl).2
  | .interface decl => (c.addInterface decl).2
  | .alias decl => (c.addAlias decl).2
  | .value decl => (c.addConst decl).2

/-- The collector after operations in the given order. -/
def steps (c : Collector) (steps : List Step) : Collector :=
  steps.foldl step c

namespace Step

def trace : Step → Trace
  | .add decl => decl.trace
  | .struct decl => decl.structTrace
  | .interface _ => []
  | .alias decl => decl.expr.trace
  | .value decl => decl.trace

def entry : Step → Entry
  | .add decl => decl.entry
  | .struct decl => .struct decl.structModel
  | .interface decl => .interface decl.name
  | .alias decl => .alias decl.name decl.expr.shape
  | .value decl => decl.entry

end Step

theorem step_eq (c : Collector) (step : Step) : c.step step = c.take step.trace step.entry := by
  match step with
  | .add decl => simp only [Collector.step, add_eq, Step.trace, Step.entry]
  | .struct decl => simp only [Collector.step, addStruct_eq, Step.trace, Step.entry]
  | .interface decl =>
      simp [Collector.step, addInterface, Step.trace, Step.entry, take, Trace.fault?, note_nil,
        enter]
  | .alias decl => simp only [Collector.step, addAlias_eq, Step.trace, Step.entry]
  | .value decl => simp only [Collector.step, addConst_snd, Step.trace, Step.entry]

end Collector

end GoAtlas
