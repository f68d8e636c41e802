import GoAtlas.Collect.Functions
import GoAtlas.Proofs.Collect.References
import GoAtlas.Proofs.GoType.Nodes

/-!
# Which imports are marked

A walk goes on to the packages whose imports are marked as needed, so a mark too many draws in
whole packages and a missing one loses them.  Marks are exact (`GoFile.marked_exactly`): the
mark of an import of a collected file is set if and only if an exported struct or alias refers
to the package, at any depth, and for functions if and only if a parameter or result does.
Nothing else about an import changes.

Both ways of collecting make their marks by traces, and what a trace without fault needs is
read off the nodes of the expressions in it (`TypeExpr.mem_needs_trace`).  It remains to say
which expressions a declaration contributes: those of its members if it is a struct, its own
if it is an alias, and none otherwise (`Decl.trace_type`).
-/

namespace GoAtlas

/-! ## What declarations refer to -/

namespace TypeExpr

/-- An exported name for an expression of this kind is an alias. -/
def IsAliased : TypeExpr → Prop
  | .ident _ | .selector _ _ | .array _ | .map _ _ | .pointer _ => True
  | .struct _ _ | .interface _ | .func _ _ | .chan _ _ | .ellipsis _ | .unsupported _ => False

/-- A type with an expression of this kind is captured if its name is exported. -/
def IsCaptured : TypeExpr → Prop
  | .struct _ _ | .ident _ | .selector _ _ | .array _ | .map _ _ | .pointer _ => True
  | .interface _ | .func _ _ | .chan _ _ | .ellipsis _ | .unsupported _ => False

end TypeExpr

namespace Decl

/-- An exported type of a kind that is captured refers to a package. -/
def RefersTo (package : String) : Decl → Prop
  | .type decl =>
      isExported decl.name = true ∧ decl.expr.IsCaptured ∧ decl.expr.RefersTo package
  | .const _ | .func _ => False

/-- A parameter or a result of a function refers to a package. -/
def SignatureRefersTo (package : String) : Decl → Prop
  | .func decl => ∃ member ∈ decl.params ++ decl.results, member.type.RefersTo package
  | .type _ | .const _ => False

end Decl

namespace ImportTable

/-- `marked` has the imports of `declared` with their names, and those with a local name in `p`
are marked. -/
structure MarkedExactly (p : String → Prop) (declared marked : ImportTable) : Prop where
  keys : marked.keys = declared.keys
  names : ∀ key entry, marked.get? key = some entry → entry.name = key ∧
    ∃ before, declared.get? key = some before ∧ before.name = entry.name ∧
      before.fullName = entry.fullName
  needed_iff : ∀ key entry, marked.get? key = some entry → (entry.needed = true ↔ p key)

/-! ## Declared imports -/

/-- Every import stands under its local name and is not marked. -/
def Fresh (imports : ImportTable) : Prop :=
  ∀ key entry, imports.get? key = some entry → entry.name = key ∧ entry.needed = false

variable {imports added : ImportTable}

theorem fresh_add {decl : ImportDecl} (hfresh : imports.Fresh)
    (hadd : imports.add decl = .ok added) : added.Fresh := by
  unfold add at hadd
  split at hadd
  case h_1 fullName _ =>
    cases hadd
    intro key entry hentry
    rw [Table.get?_insert] at hentry
    split at hentry
    · rename_i hkey
      cases hentry
      exact ⟨hkey.symm, rfl⟩
    · exact hfresh key entry hentry
  case h_2 => cases hadd
  case h_3 =>
    cases hadd
    exact hfresh

theorem fresh_ofDecls {decls : List ImportDecl} (hdecls : ofDecls decls = .ok imports) :
    imports.Fresh := by
  suffices hfold : ∀ table : ImportTable, table.Fresh → decls.foldlM add table = .ok imports →
      imports.Fresh from
    hfold Table.empty (fun key entry hentry => by cases hentry) hdecls
  clear hdecls
  induction decls with
  | nil =>
      intro table hfresh hfold
      cases hfold
      exact hfresh
  | cons decl rest ih =>
      intro table hfresh hfold
      rw [List.foldlM_cons] at hfold
      cases hadd : table.add decl with
      | error fault =>
          rw [hadd] at hfold
          cases hfold
      | ok added =>
          rw [hadd] at hfold
          exact ih added (fresh_add hfresh hadd) hfold

/-! ## Marking -/

/-- Marking fresh imports marks exactly those under the given names. -/
theorem markedExactly_needAll {p : String → Prop} {names : List String} (hfresh : imports.Fresh)
    (hnames : ∀ name, name ∈ names ↔ p name) :
    MarkedExactly p imports (imports.needAll names) := by
  refine ⟨keys_needAll imports names, ?_, ?_⟩
  · intro key entry hentry
    rw [get?_needAll, Option.map_eq_some_iff] at hentry
    obtain ⟨before, hbefore, rfl⟩ := hentry
    have hname := (hfresh key before hbefore).1
    refine ⟨?_, before, hbefore, ?_, ?_⟩
    · split <;> exact hname
    · split <;> rfl
    · split <;> rfl
  · intro key entry hentry
    rw [get?_needAll, Option.map_eq_some_iff] at hentry
    obtain ⟨before, hbefore, rfl⟩ := hentry
    rw [← hnames]
    split
    case isTrue hkey => simp [hkey]
    case isFalse hkey => simp [hkey, (hfresh key before hbefore).2]

end ImportTable

/-! ## Captured declarations -/

namespace TypeExpr

variable {package : String} {members : List (Member TypeExpr)}

theorem refersTo_struct {incomplete : Bool} :
    (struct members incomplete).RefersTo package ↔
      ∃ member ∈ members, member.type.RefersTo package := by
  simp only [RefersTo, nodes, nodesAll_eq, List.mem_cons, List.mem_flatMap, reduceCtorEq, false_or]
  constructor
  · rintro ⟨name, member, hmember, hnode⟩
    exact ⟨member, hmember, name, hnode⟩
  · rintro ⟨member, hmember, name, hnode⟩
    exact ⟨name, member, hmember, hnode⟩

/-- Without a fault, a visit of members needs the packages that one of them refers to. -/
theorem mem_needs_traceMembers (hnone : Trace.fault? (traceMembers members) = none) :
    package ∈ Trace.needs (traceMembers members) ↔
      ∃ member ∈ members, member.type.RefersTo package := by
  have hstruct : Trace.fault? (struct members false).trace = none := by
    simpa only [trace] using hnone
  have hneeds : package ∈ Trace.needs (struct members false).trace ↔
      (struct members false).RefersTo package := mem_needs_trace hstruct
  rwa [refersTo_struct, trace] at hneeds

end TypeExpr

/-- The events met in the declaration of an exported type. -/
def TypeDecl.captureTrace (decl : TypeDecl) : Trace :=
  match decl.expr with
  | .struct _ _ => decl.structTrace
  | .ident _ | .selector _ _ | .array _ | .map _ _ | .pointer _ => decl.expr.trace
  | .interface _ | .func _ _ | .chan _ _ | .ellipsis _ | .unsupported _ => []

namespace Decl

variable {decl : Decl} {package : String}

theorem trace_type (decl : TypeDecl) :
    (Decl.type decl).trace = if isExported decl.name then decl.captureTrace else [] := by
  obtain ⟨name, expr⟩ := decl
  cases hexported : isExported name <;> cases expr <;>
    simp [trace, role?, isStruct, isInterface, isAlias, isAliasValue, isExportedType, hexported,
      TypeDecl.captureTrace]

theorem needs_constTrace (decl : ConstDecl) : Trace.needs decl.trace = [] := by
  unfold ConstDecl.trace
  split <;> rfl

theorem trace_func (decl : FuncDecl) : (Decl.func decl).trace = [] := by
  simp [trace, role?, isStruct, isInterface, isAlias, isAliasValue, isExportedType]

/-- A constant is met in the same way whether or not it is in the role of a value. -/
theorem trace_const (decl : ConstDecl) : (Decl.const decl).trace = decl.trace := by
  by_cases hvalues : decl.values.length = 1
  · simp [trace, role?, isStruct, isInterface, isAlias, isExportedType, isAliasValue, hvalues]
  · simp [trace, role?, isStruct, isInterface, isAlias, isExportedType, isAliasValue, hvalues,
      ConstDecl.trace, ConstDecl.reading_eq_unrelated hvalues]

end Decl

namespace Collector

theorem need_not_mem_tagTrace {package owner : String} {tag : Option String} :
    Event.need package ∉ tagTrace owner tag := by
  unfold tagTrace
  split
  · simp
  · split <;> simp [malformedEvent]

theorem need_not_mem_nameTrace {package owner : String} {member : FieldDecl} :
    Event.need package ∉ nameTrace owner member := by
  unfold nameTrace
  split <;> simp

/-- Of a member of a struct, only the type refers to packages. -/
theorem need_mem_memberTrace_iff {package owner : String} {member : FieldDecl} :
    Event.need package ∈ memberTrace owner member ↔ Event.need package ∈ member.type.trace := by
  simp [memberTrace, need_not_mem_tagTrace, need_not_mem_nameTrace]

theorem mem_needs_memberTrace {package owner : String} {member : FieldDecl}
    (hnone : Trace.fault? (memberTrace owner member) = none) :
    package ∈ Trace.needs (memberTrace owner member) ↔ member.type.RefersTo package := by
  have htype : Trace.fault? member.type.trace = none := by
    rw [memberTrace, Trace.fault?_append, Option.or_eq_none_iff] at hnone
    exact hnone.1
  rw [Trace.mem_needs hnone, need_mem_memberTrace_iff, ← Trace.mem_needs htype,
    TypeExpr.mem_needs_trace htype]

end Collector

namespace TypeDecl

variable {decl : TypeDecl} {package : String}

theorem mem_needs_structTrace {members : List FieldDecl} {incomplete : Bool}
    (hexpr : decl.expr = .struct members incomplete)
    (hnone : Trace.fault? decl.structTrace = none) :
    package ∈ Trace.needs decl.structTrace ↔ ∃ member ∈ members, member.type.RefersTo package := by
  cases incomplete with
  | true => simp [structTrace, hexpr, Trace.fault?] at hnone
  | false =>
      simp only [structTrace, hexpr] at hnone ⊢
      rw [Trace.mem_needs_flatMap hnone]
      exact exists_congr fun member => and_congr_right fun hmember =>
        Collector.mem_needs_memberTrace (Trace.fault?_flatMap_eq_none_iff.mp hnone member hmember)

/-- A captured type needs what it refers to; an interface may refer to packages as well, but it
needs none. -/
theorem mem_needs_captureTrace (hnone : Trace.fault? decl.captureTrace = none) :
    package ∈ Trace.needs decl.captureTrace ↔
      decl.expr.IsCaptured ∧ decl.expr.RefersTo package := by
  obtain ⟨name, expr⟩ := decl
  cases expr with
  | struct members incomplete =>
      simp only [captureTrace] at hnone ⊢
      rw [mem_needs_structTrace rfl hnone, TypeExpr.refersTo_struct]
      simp [TypeExpr.IsCaptured]
  | ident _ | selector _ _ | array _ | map _ _ | pointer _ =>
      simp only [captureTrace] at hnone ⊢
      simp [TypeExpr.mem_needs_trace hnone, TypeExpr.IsCaptured]
  | interface _ | func _ _ | chan _ _ | ellipsis _ | unsupported _ =>
      simp [captureTrace, TypeExpr.IsCaptured, Trace.needs]

end TypeDecl

namespace Decl

variable {decl : Decl} {decls : List Decl} {package : String}

/-- Without a fault, a declaration needs the packages that it refers to. -/
theorem mem_needs_trace (hnone : Trace.fault? decl.trace = none) :
    package ∈ Trace.needs decl.trace ↔ decl.RefersTo package := by
  cases decl with
  | type decl =>
      rw [trace_type] at hnone ⊢
      cases hexported : isExported decl.name with
      | false => simp [RefersTo, hexported, Trace.needs]
      | true =>
          rw [hexported, if_pos rfl] at hnone
          simp [RefersTo, hexported, TypeDecl.mem_needs_captureTrace hnone]
  | const decl => simp [trace_const, needs_constTrace, RefersTo]
  | func decl => simp [trace_func, RefersTo, Trace.needs]

theorem mem_needs_traces (hnone : Trace.fault? (traces decls) = none) :
    package ∈ Trace.needs (traces decls) ↔ ∃ decl ∈ decls, decl.RefersTo package := by
  rw [traces] at hnone ⊢
  rw [Trace.mem_needs_flatMap hnone]
  exact exists_congr fun decl => and_congr_right fun hdecl =>
    mem_needs_trace (Trace.fault?_flatMap_eq_none_iff.mp hnone decl hdecl)

end Decl

/-! ## Functions -/

/-- Resolving parameters is running the trace of their types. -/
theorem resolveParams_eq (members : List FieldDecl) (imports : ImportTable) :
    resolveParams members imports =
      TypeExpr.settle (TypeExpr.traceMembers members)
        (members.flatMap fun member => Member.params member member.type.shape) imports := by
  induction members generalizing imports with
  | nil =>
      simp only [resolveParams, TypeExpr.traceMembers, List.flatMap_nil]
      rfl
  | cons member rest ih =>
      simp only [resolveParams, TypeExpr.traceMembers, List.flatMap_cons, TypeExpr.resolve_eq]
      refine TypeExpr.andThen_settle _ _ _ _ _ _ fun imports => ?_
      rw [ih, TypeExpr.map_settle]

namespace FuncDecl

/-- The events met in the signature of a function. -/
def trace (decl : FuncDecl) : Trace :=
  TypeExpr.traceMembers decl.params ++ TypeExpr.traceMembers decl.results

/-- The model of a function if there is no fault in its signature. -/
def model (decl : FuncDecl) : FuncModel where
  name := decl.name
  params := decl.params.flatMap fun member => Member.params member member.type.shape
  returns := decl.results.flatMap fun member => Member.params member member.type.shape

theorem resolve_eq (decl : FuncDecl) (imports : ImportTable) :
    decl.resolve imports = TypeExpr.settle decl.trace decl.model imports := by
  unfold resolve
  rw [resolveParams_eq]
  refine TypeExpr.andThen_settle _ _ _ _ _ _ fun imports => ?_
  rw [resolveParams_eq, TypeExpr.map_settle]
  rfl

end FuncDecl

/-- The events met in a declaration when functions are collected. -/
def Decl.signatureTrace : Decl → Trace
  | .func decl => decl.trace
  | .type _ | .const _ => []

namespace FuncFile

/-- When functions have been collected there was no fault in their signatures, and the marks
are those of the signatures. -/
theorem imports_of_addAll {file result : FuncFile} {decls : List Decl}
    (hadd : file.addAll decls = .ok result) :
    Trace.fault? (decls.flatMap Decl.signatureTrace) = none ∧
      result.imports = file.imports.needAll (Trace.needs (decls.flatMap Decl.signatureTrace)) := by
  induction decls generalizing file with
  | nil =>
      cases hadd
      exact ⟨rfl, rfl⟩
  | cons decl rest ih =>
      rw [List.flatMap_cons]
      cases decl with
      | type decl => exact ih hadd
      | const decl => exact ih hadd
      | func decl =>
          simp only [addAll, FuncDecl.resolve_eq, TypeExpr.settle] at hadd
          cases hfault : Trace.fault? decl.trace with
          | some fault =>
              rw [Trace.outcome_of_fault hfault] at hadd
              cases hadd
          | none =>
              rw [Trace.outcome_of_none hfault] at hadd
              obtain ⟨hrest, himports⟩ := ih hadd
              have hnone : Trace.fault? (Decl.func decl).signatureTrace = none := hfault
              refine ⟨by rw [Trace.fault?_append, hnone, hrest, Option.or_none], ?_⟩
              rw [Trace.needs_append hnone, ImportTable.needAll_append]
              exact himports

end FuncFile

namespace Decl

variable {decl : Decl} {decls : List Decl} {package : String}

theorem mem_needs_signatureTrace (hnone : Trace.fault? decl.signatureTrace = none) :
    package ∈ Trace.needs decl.signatureTrace ↔ decl.SignatureRefersTo package := by
  cases decl with
  | type decl => simp [signatureTrace, SignatureRefersTo, Trace.needs]
  | const decl => simp [signatureTrace, SignatureRefersTo, Trace.needs]
  | func decl =>
      simp only [signatureTrace, FuncDecl.trace] at hnone ⊢
      rw [Trace.fault?_append, Option.or_eq_none_iff] at hnone
      rw [Trace.needs_append hnone.1, List.mem_append, TypeExpr.mem_needs_traceMembers hnone.1,
        TypeExpr.mem_needs_traceMembers hnone.2]
      simp only [SignatureRefersTo, List.mem_append, or_and_right, exists_or]

theorem mem_needs_signatureTraces
    (hnone : Trace.fault? (decls.flatMap signatureTrace) = none) :
    package ∈ Trace.needs (decls.flatMap signatureTrace) ↔
      ∃ decl ∈ decls, decl.SignatureRefersTo package := by
  rw [Trace.mem_needs_flatMap hnone]
  exact exists_congr fun decl => and_congr_right fun hdecl =>
    mem_needs_signatureTrace (Trace.fault?_flatMap_eq_none_iff.mp hnone decl hdecl)

end Decl

/-! ## Whole files -/

/-- The imports of a collected file are those that it declares, with the marks of the traces
of its declarations. -/
theorem GoFile.imports_of_collect {name : String} {file : GoFile} {collected : Collected}
    (hcollect : file.collect name = .ok collected) :
    ∃ declared, ImportTable.ofDecls file.imports = .ok declared ∧
      Trace.fault? (Decl.traces file.decls) = none ∧
      collected.file.imports = declared.needAll (Trace.needs (Decl.traces file.decls)) := by
  obtain ⟨c, hstart, hnone, rfl⟩ := GoFile.collect_eq_ok_iff.mp hcollect
  have himports : (c.steps (file.decls.map .add)).finish.file.imports =
      c.file.imports.needAll (Trace.needs (Decl.traces file.decls)) :=
    calc (c.steps (file.decls.map .add)).finish.file.imports
        = (c.steps (file.decls.map .add)).file.imports := rfl
      _ = ((c.note (Decl.traces file.decls)).enterAll
            (file.decls.map Decl.entry)).file.imports := by
          rw [Collector.steps_add hnone]
      _ = (c.note (Decl.traces file.decls)).file.imports :=
          (Collector.sameNotes_enterAll _ _).imports
  obtain ⟨declared, hdeclared, rfl⟩ := Collector.start_eq_ok_iff.mp hstart
  exact ⟨declared, hdeclared, hnone, himports⟩

/-- **Marks are exact.**  Collecting types marks the imports that an exported struct or alias
refers to, collecting functions marks those that a parameter or result refers to, and in both
cases the imports are otherwise as they are declared. -/
theorem GoFile.marked_exactly (name : String) (file : GoFile) :
    (∀ collected, file.collect name = .ok collected →
      ∃ declared, ImportTable.ofDecls file.imports = .ok declared ∧
        ImportTable.MarkedExactly (fun package => ∃ decl ∈ file.decls, decl.RefersTo package)
          declared collected.file.imports) ∧
    ∀ functions, file.collectFunctions name = .ok functions →
      ∃ declared, ImportTable.ofDecls file.imports = .ok declared ∧
        ImportTable.MarkedExactly
          (fun package => ∃ decl ∈ file.decls, decl.SignatureRefersTo package)
          declared functions.imports := by
  constructor
  · intro collected hcollect
    obtain ⟨declared, hdeclared, hnone, himports⟩ := GoFile.imports_of_collect hcollect
    refine ⟨declared, hdeclared, ?_⟩
    rw [himports]
    exact ImportTable.markedExactly_needAll (ImportTable.fresh_ofDecls hdeclared)
      fun package => Decl.mem_needs_traces hnone
  · intro functions hcollect
    unfold GoFile.collectFunctions at hcollect
    split at hcollect
    · cases hcollect
    · rename_i declared hdeclared
      obtain ⟨hnone, himports⟩ := FuncFile.imports_of_addAll hcollect
      refine ⟨declared, hdeclared, ?_⟩
      rw [himports]
      exact ImportTable.markedExactly_needAll (ImportTable.fresh_ofDecls hdeclared)
        fun package => Decl.mem_needs_signatureTraces hnone

/-- A struct refers to a package behind a map and a function, and to three other packages
there are references in an interface, in an unexported type and in a signature only. -/
def GoFile.scattered : GoFile where
  package := "p"
  imports := [⟨"\"x/a\"", none⟩, ⟨"\"x/b\"", none⟩, ⟨"\"x/c\"", none⟩, ⟨"\"x/e\"", some "d"⟩]
  decls := [
    .type ⟨"Box", .struct [⟨["Open"], .map (.ident "string")
      (.func [⟨[], .ellipsis (.selector "a" "T"), none⟩] []), none⟩] false⟩,
    .type ⟨"Reader", .interface [⟨[], .selector "b" "T", none⟩]⟩,
    .type ⟨"hidden", .selector "c" "T"⟩,
    .func ⟨"New", [], [⟨[], .pointer (.selector "d" "T"), none⟩]⟩]

theorem eq_ok_of_toOption {α : Type} {result : Except Fault α} {a : α}
    (hresult : result.toOption = some a) : result = .ok a := by
  cases result <;> cases hresult
  rfl

theorem GoFile.marked_exactly_scattered :
    ∃ collected functions, GoFile.scattered.collect "a.go" = .ok collected ∧
      GoFile.scattered.collectFunctions "a.go" = .ok functions ∧
      (collected.file.imports.values.filter (·.needed)).map (·.fullName) = ["x/a"] ∧
      (functions.imports.values.filter (·.needed)).map (·.fullName) = ["x/e"] ∧
      (∃ decl ∈ GoFile.scattered.decls, decl.RefersTo "a") ∧
      ∃ decl ∈ GoFile.scattered.decls, decl.SignatureRefersTo "d" := by
  obtain ⟨htypes, hfunctions⟩ := GoFile.marked_exactly "a.go" GoFile.scattered
  have hcollected : (GoFile.scattered.collect "a.go").toOption.map (·.file.imports.entries) =
      some [("a", ⟨"a", "x/a", true⟩), ("b", ⟨"b", "x/b", false⟩), ("c", ⟨"c", "x/c", false⟩),
        ("d", ⟨"d", "x/e", false⟩)] := by decide +kernel
  have hfound : (GoFile.scattered.collectFunctions "a.go").toOption.map (·.imports.entries) =
      some [("a", ⟨"a", "x/a", false⟩), ("b", ⟨"b", "x/b", false⟩), ("c", ⟨"c", "x/c", false⟩),
        ("d", ⟨"d", "x/e", true⟩)] := by decide +kernel
  obtain ⟨collected, hcollect, hentries⟩ := Option.map_eq_some_iff.mp hcollected
  obtain ⟨functions, hcollect', hentries'⟩ := Option.map_eq_some_iff.mp hfound
  obtain ⟨declared, -, hexactly⟩ := htypes collected (eq_ok_of_toOption hcollect)
  obtain ⟨declared', -, hexactly'⟩ := hfunctions functions (eq_ok_of_toOption hcollect')
  have hmark : collected.file.imports.get? "a" = some ⟨"a", "x/a", true⟩ := by
    rw [Table.get?, hentries]
    rfl
  have hmark' : functions.imports.get? "d" = some ⟨"d", "x/e", true⟩ := by
    rw [Table.get?, hentries']
    rfl
  refine ⟨collected, functions, eq_ok_of_toOption hcollect, eq_ok_of_toOption hcollect', ?_, ?_,
    (hexactly.needed_iff _ _ hmark).mp rfl, (hexactly'.needed_iff _ _ hmark').mp rfl⟩
  · rw [Table.values, hentries]
    rfl
  · rw [Table.values, hentries']
    rfl

end GoAtlas
