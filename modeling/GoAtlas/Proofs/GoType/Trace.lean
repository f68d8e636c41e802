import GoAtlas.GoType.Resolve
import GoAtlas.World.Diagnostic
import GoAtlas.Proofs.Table

/-!
# Traces

Resolving a type threads a table of imports through the expression and stops at the
first part that has no counterpart.  None of what it does depends on the table: it is
determined by the sequence of events that a visit of the whole expression meets, its
*trace*.  The events before the first fault take effect, and the fault, if there is
one, is the outcome.

`TypeExpr.trace` and `TypeExpr.shape` read the trace and the denoted type off an
expression, and `TypeExpr.resolve_eq` says that resolving is running the trace.  Traces
also hold reports, because the members of structs are treated in the same way
(`Proofs/Collect/Trace.lean`).
-/

namespace GoAtlas

/-- Something met on the way through a declaration. -/
inductive Event where
  /-- A package is referred to. -/
  | need (package : String)
  /-- Something is left out. -/
  | report (subject : String) (kind : DiagnosticKind) (message : String)
  /-- Something that nothing after it makes up for. -/
  | fault (fault : Fault)
deriving Repr

/-- What an event reports about `file`. -/
def Event.diagnostic? (file : String) : Event → Option Diagnostic
  | .report subject kind message => some ⟨file, subject, kind, message⟩
  | _ => none

abbrev Trace := List Event

namespace Trace

def fault? : Trace → Option Fault
  | [] => none
  | .fault fault :: _ => some fault
  | .need _ :: rest => fault? rest
  | .report _ _ _ :: rest => fault? rest

/-- The packages referred to before the first fault. -/
def needs : Trace → List String
  | [] => []
  | .fault _ :: _ => []
  | .need package :: rest => package :: needs rest
  | .report _ _ _ :: rest => needs rest

/-- The reports about `file` before the first fault. -/
def reports (file : String) : Trace → List Diagnostic
  | [] => []
  | .fault _ :: _ => []
  | .need _ :: rest => reports file rest
  | .report subject kind message :: rest => ⟨file, subject, kind, message⟩ :: reports file rest

/-- The first fault, or else `value`. -/
def outcome {α : Type} (trace : Trace) (value : α) : Except Fault α :=
  match fault? trace with
  | some fault => .error fault
  | none => .ok value

variable {first second : Trace} {fault : Fault} {file : String}

theorem fault?_append (first second : Trace) :
    fault? (first ++ second) = (fault? first).or (fault? second) := by
  induction first with
  | nil => simp [fault?]
  | cons event rest ih => cases event <;> simp [fault?, ih]

theorem needs_append (hnone : fault? first = none) :
    needs (first ++ second) = needs first ++ needs second := by
  induction first with
  | nil => rfl
  | cons event rest ih =>
      cases event with
      | fault fault => cases hnone
      | need package =>
          simp only [fault?] at hnone
          simp [needs, ih hnone]
      | report subject kind message =>
          simp only [fault?] at hnone
          simp [needs, ih hnone]

theorem reports_append (hnone : fault? first = none) :
    reports file (first ++ second) = reports file first ++ reports file second := by
  induction first with
  | nil => rfl
  | cons event rest ih =>
      cases event with
      | fault fault => cases hnone
      | need package =>
          simp only [fault?] at hnone
          simp [reports, ih hnone]
      | report subject kind message =>
          simp only [fault?] at hnone
          simp [reports, ih hnone]

theorem needs_append_of_fault (hfault : fault? first = some fault) :
    needs (first ++ second) = needs first := by
  induction first with
  | nil => cases hfault
  | cons event rest ih => cases event <;> simp_all [fault?, needs]

theorem reports_append_of_fault (hfault : fault? first = some fault) :
    reports file (first ++ second) = reports file first := by
  induction first with
  | nil => cases hfault
  | cons event rest ih => cases event <;> simp_all [fault?, reports]

theorem outcome_of_none {α : Type} {value : α} (hnone : fault? first = none) :
    outcome first value = .ok value := by
  rw [outcome, hnone]

theorem outcome_of_fault {α : Type} {value : α} (hfault : fault? first = some fault) :
    outcome first value = .error fault := by
  rw [outcome, hfault]

theorem outcome_append {α : Type} {value : α} (hnone : fault? first = none) :
    outcome (first ++ second) value = outcome second value := by
  rw [outcome, outcome, fault?_append, hnone, Option.none_or]

theorem outcome_append_of_fault {α : Type} {value : α} (hfault : fault? first = some fault) :
    outcome (first ++ second) value = .error fault := by
  rw [outcome, fault?_append, hfault, Option.some_or]

/-- A trace is without fault if no event in it is one. -/
theorem fault?_eq_none_iff {trace : Trace} :
    fault? trace = none ↔ ∀ fault, Event.fault fault ∉ trace := by
  induction trace with
  | nil => simp [fault?]
  | cons event rest ih =>
      cases event with
      | fault fault =>
          refine iff_of_false nofun fun hnot => ?_
          exact hnot fault (List.mem_cons_self ..)
      | need other => simp [fault?, ih]
      | report subject kind message => simp [fault?, ih]

/-- Without a fault, every package referred to is needed. -/
theorem mem_needs {trace : Trace} {package : String} (hnone : fault? trace = none) :
    package ∈ needs trace ↔ Event.need package ∈ trace := by
  induction trace with
  | nil => simp [needs]
  | cons event rest ih =>
      cases event with
      | fault fault => cases hnone
      | need other => simp [needs, ih hnone]
      | report subject kind message => simp [needs, ih hnone]

/-- Without a fault, every report is made. -/
theorem reports_eq_filterMap {trace : Trace} (hnone : fault? trace = none) (file : String) :
    reports file trace = trace.filterMap (Event.diagnostic? file) := by
  induction trace with
  | nil => rfl
  | cons event rest ih =>
      cases event with
      | fault fault => cases hnone
      | need other =>
          rw [List.filterMap_cons_none rfl]
          exact ih hnone
      | report subject kind message => simp [reports, Event.diagnostic?, ih hnone]

theorem reports_append_eq_nil (hfirst : reports file first = [])
    (hsecond : reports file second = []) : reports file (first ++ second) = [] := by
  cases hfault : fault? first with
  | some fault => rw [reports_append_of_fault hfault, hfirst]
  | none => rw [reports_append hfault, hfirst, hsecond, List.append_nil]

end Trace

/-! ## Marks on imports -/

namespace ImportTable

/-- Notes that each of the given packages is referred to. -/
def needAll (imports : ImportTable) (names : List String) : ImportTable :=
  names.foldl need imports

theorem needAll_append (imports : ImportTable) (first second : List String) :
    imports.needAll (first ++ second) = (imports.needAll first).needAll second :=
  List.foldl_append ..

theorem keys_needAll (imports : ImportTable) (names : List String) :
    (imports.needAll names).keys = imports.keys := by
  induction names generalizing imports with
  | nil => rfl
  | cons name rest ih =>
      calc (imports.needAll (name :: rest)).keys
          = ((imports.need name).needAll rest).keys := rfl
        _ = (imports.need name).keys := ih _
        _ = imports.keys := by simp [need, Table.keys, Table.modify]

/-- Exactly the entries under the given names are marked. -/
theorem get?_needAll (imports : ImportTable) (names : List String) (key : String) :
    (imports.needAll names).get? key =
      (imports.get? key).map fun entry =>
        if key ∈ names then { entry with needed := true } else entry := by
  induction names generalizing imports with
  | nil => simp [needAll]
  | cons name rest ih =>
      rw [needAll, List.foldl_cons, ← needAll, ih, need, Table.get?_modify]
      cases imports.get? key with
      | none => simp
      | some entry =>
          by_cases hname : key = name
          · by_cases hrest : key ∈ rest <;> simp [hname]
          · simp [hname]

end ImportTable

/-! ## Resolving -/

namespace TypeExpr

/-- The result of running a trace on a table of imports. -/
def settle {α : Type} (trace : Trace) (value : α) (imports : ImportTable) : Resolved α :=
  (Trace.outcome trace value, imports.needAll (Trace.needs trace))

theorem map_settle {α β : Type} (f : α → β) (trace : Trace) (value : α) (imports : ImportTable) :
    (settle trace value imports).map f = settle trace (f value) imports := by
  unfold settle Trace.outcome
  cases Trace.fault? trace <;> rfl

theorem andThen_settle {α β : Type} (first second : Trace) (value : α) (imports : ImportTable)
    (next : α → ImportTable → Resolved β) (result : β)
    (hnext : ∀ imports, next value imports = settle second result imports) :
    (settle first value imports).andThen next = settle (first ++ second) result imports := by
  unfold settle Trace.outcome
  rw [Trace.fault?_append]
  cases hfault : Trace.fault? first with
  | some fault =>
      rw [Trace.needs_append_of_fault hfault]
      rfl
  | none =>
      rw [Trace.needs_append hfault, ImportTable.needAll_append]
      exact hnext _

mutual

/-- The events met in an expression, from left to right. -/
def trace : TypeExpr → Trace
  | .ident _ => []
  | .selector package _ => [.need package]
  | .array elem => elem.trace
  | .map key value => key.trace ++ value.trace
  | .pointer target => target.trace
  | .struct _ true => [.fault (.incompleteStruct "anonymous struct")]
  | .struct fields false => traceMembers fields
  | .interface elements => traceMembers elements
  | .func params results => traceMembers params ++ traceMembers results
  | .chan _ elem => elem.trace
  | .ellipsis elem => elem.trace
  | .unsupported kind => [.fault (.unsupportedType kind)]

def traceMembers : List (Member TypeExpr) → Trace
  | [] => []
  | ⟨_, type, _⟩ :: rest => type.trace ++ traceMembers rest

end

mutual

/-- The type that an expression denotes if there is no fault in it. -/
def shape : TypeExpr → GoType
  | .ident name => .primitive name
  | .selector package name => .selector package name
  | .array elem => .array elem.shape
  | .map key value => .map key.shape value.shape
  | .pointer target => .pointer target.shape
  | .struct fields _ => .struct (shapes fields)
  | .interface elements => .interface (shapes elements)
  | .func params results => .func (shapes params) (shapes results)
  | .chan dir elem => .channel elem.shape dir
  | .ellipsis elem => .ellipsis elem.shape
  | .unsupported kind => .primitive kind

def shapes : List (Member TypeExpr) → List GoType
  | [] => []
  | ⟨_, type, _⟩ :: rest => type.shape :: shapes rest

end

mutual

/-- Resolving an expression is running its trace. -/
theorem resolve_eq : ∀ (expr : TypeExpr) (imports : ImportTable),
    expr.resolve imports = settle expr.trace expr.shape imports
  | .ident name, imports => by
      simp only [resolve, trace, shape]
      rfl
  | .selector package name, imports => by
      simp only [resolve, trace, shape]
      rfl
  | .array elem, imports => by
      simp only [resolve, trace, shape, resolve_eq elem, map_settle]
  | .map key value, imports => by
      simp only [resolve, trace, shape, resolve_eq key]
      refine andThen_settle _ _ _ _ _ _ fun imports => ?_
      rw [resolve_eq value, map_settle]
  | .pointer target, imports => by
      simp only [resolve, trace, shape, resolve_eq target, map_settle]
  | .struct fields true, imports => by
      simp only [resolve, trace, shape]
      rfl
  | .struct fields false, imports => by
      simp only [resolve, trace, shape, resolveMembers_eq fields, map_settle]
  | .interface elements, imports => by
      simp only [resolve, trace, shape, resolveMembers_eq elements, map_settle]
  | .func params results, imports => by
      simp only [resolve, trace, shape, resolveMembers_eq params]
      refine andThen_settle _ _ _ _ _ _ fun imports => ?_
      rw [resolveMembers_eq results, map_settle]
  | .chan dir elem, imports => by
      simp only [resolve, trace, shape, resolve_eq elem, map_settle]
  | .ellipsis elem, imports => by
      simp only [resolve, trace, shape, resolve_eq elem, map_settle]
  | .unsupported kind, imports => by
      simp only [resolve, trace, shape]
      rfl

theorem resolveMembers_eq : ∀ (members : List (Member TypeExpr)) (imports : ImportTable),
    resolveMembers members imports = settle (traceMembers members) (shapes members) imports
  | [], imports => by
      simp only [resolveMembers, traceMembers, shapes]
      rfl
  | ⟨_, type, _⟩ :: rest, imports => by
      simp only [resolveMembers, traceMembers, shapes, resolve_eq type]
      refine andThen_settle _ _ _ _ _ _ fun imports => ?_
      rw [resolveMembers_eq rest, map_settle]

end

mutual

theorem reports_trace (file : String) : ∀ expr : TypeExpr, Trace.reports file expr.trace = []
  | .ident _ => by simp [trace, Trace.reports]
  | .selector _ _ => by simp [trace, Trace.reports]
  | .array elem => by simpa only [trace] using reports_trace file elem
  | .map key value => by
      simp only [trace]
      exact Trace.reports_append_eq_nil (reports_trace file key) (reports_trace file value)
  | .pointer target => by simpa only [trace] using reports_trace file target
  | .struct _ true => by simp [trace, Trace.reports]
  | .struct fields false => by simpa only [trace] using reports_traceMembers file fields
  | .interface elements => by simpa only [trace] using reports_traceMembers file elements
  | .func params results => by
      simp only [trace]
      exact Trace.reports_append_eq_nil (reports_traceMembers file params)
        (reports_traceMembers file results)
  | .chan _ elem => by simpa only [trace] using reports_trace file elem
  | .ellipsis elem => by simpa only [trace] using reports_trace file elem
  | .unsupported _ => by simp [trace, Trace.reports]

theorem reports_traceMembers (file : String) :
    ∀ members : List (Member TypeExpr), Trace.reports file (traceMembers members) = []
  | [] => by simp [traceMembers, Trace.reports]
  | ⟨_, type, _⟩ :: rest => by
      simp only [traceMembers]
      exact Trace.reports_append_eq_nil (reports_trace file type)
        (reports_traceMembers file rest)

end

end TypeExpr

end GoAtlas
