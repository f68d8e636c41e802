import GoAtlas.Proofs.Collect.Marks

/-!
# What makes a file fatal

A file cannot be collected if one of its exported structs or aliases is flawed, and the fault
is that of the first flaw: of the first flawed declaration, of its first flawed field, and of
the first thing wrong with that (`GoFile.collect_first`).  Nothing else in a file is fatal,
however strange its types are.

What it means to be flawed is said without any order (`Decl.IsFatal`), and separately which
of several flaws counts (`Decl.FirstFlaw`).  Traces tie both to the collector: the trace of a
declaration ends with the flaw that counts (`Decl.fault?_eq_some_iff`) and has no fault
exactly if the declaration is not fatal (`Decl.fault?_eq_none_iff`).

Faults in imports are different.  An import that cannot be read is left out, except for a path
that consists of a single character beyond ASCII, over which reading breaks down; then
nothing is said about the declarations (`GoFile.collect_stray`).
-/

namespace GoAtlas

namespace TypeExpr

/-- A named type under any number of pointers. -/
def IsNamed : TypeExpr → Prop
  | .ident _ | .selector _ _ => True
  | .pointer target => target.IsNamed
  | .array _ | .map _ _ | .struct _ _ | .interface _ | .func _ _ | .chan _ _ | .ellipsis _
  | .unsupported _ => False

theorem innermost?_eq_none_iff : ∀ expr : TypeExpr, expr.innermost? = none ↔ ¬ expr.IsNamed
  | .pointer target => by simpa only [innermost?, IsNamed] using innermost?_eq_none_iff target
  | .ident _ | .selector _ _ => by simp [innermost?, IsNamed]
  | .array _ | .map _ _ | .struct _ _ | .interface _ | .func _ _ | .chan _ _ | .ellipsis _
  | .unsupported _ => by simp [innermost?, IsNamed]

theorem isFlawed_of_head? {expr : TypeExpr} {fault : Fault}
    (hflaw : expr.flaws.head? = some fault) : expr.IsFlawed :=
  exists_mem_flaws_iff.mp ⟨fault, List.mem_of_head? hflaw⟩

end TypeExpr

/-! ## Flawed fields -/

namespace Member

/-- A member of a struct has a flawed type, a tag that cannot be read, or no name. -/
inductive IsFlawed (member : FieldDecl) : Prop
  | type (hflawed : member.type.IsFlawed)
  | tag {literal : String} {fault : Fault} (htag : member.tag = some literal)
      (hfault : Literal.unquote literal = .error fault)
  | name (hnames : member.names = []) (hnamed : ¬ member.type.IsNamed)

/-- The fault that counts in a member of the struct `owner`: its type comes before its tag,
and its tag before its name. -/
inductive FirstFlaw (owner : String) (member : FieldDecl) : Fault → Prop
  | type {fault : Fault} (hflaw : member.type.flaws.head? = some fault) :
      FirstFlaw owner member fault
  | tag {literal : String} {fault : Fault} (htype : ¬ member.type.IsFlawed)
      (htag : member.tag = some literal) (hfault : Literal.unquote literal = .error fault) :
      FirstFlaw owner member fault
  | name (htype : ¬ member.type.IsFlawed)
      (htag : ∀ literal, member.tag = some literal → ∃ text, Literal.unquote literal = .ok text)
      (hnames : member.names = []) (hnamed : ¬ member.type.IsNamed) :
      FirstFlaw owner member (.missingEmbeddedName (member.type.kindName ++ " in " ++ owner))

variable {member : FieldDecl} {owner : String} {fault : Fault}

theorem FirstFlaw.isFlawed (hflaw : FirstFlaw owner member fault) : IsFlawed member := by
  cases hflaw with
  | type hflaw => exact .type (TypeExpr.isFlawed_of_head? hflaw)
  | tag htype htag hfault => exact .tag htag hfault
  | name htype htag hnames hnamed => exact .name hnames hnamed

theorem fault?_tagTrace_some {literal : String} :
    Trace.fault? (Collector.tagTrace owner (some literal)) =
      match Literal.unquote literal with
      | .error fault => some fault
      | .ok _ => none := by
  cases hread : Literal.unquote literal with
  | error other => simp [Collector.tagTrace, Tags.read, hread, Trace.fault?]
  | ok text => simp [Collector.tagTrace, Tags.read, hread, Collector.fault?_malformed]

theorem fault?_tagTrace_eq_some_iff {tag : Option String} :
    Trace.fault? (Collector.tagTrace owner tag) = some fault ↔
      ∃ literal, tag = some literal ∧ Literal.unquote literal = .error fault := by
  cases tag with
  | none => simp [Collector.tagTrace, Trace.fault?]
  | some literal =>
      rw [fault?_tagTrace_some]
      cases hread : Literal.unquote literal <;> simp [hread]

theorem fault?_tagTrace_eq_none_iff {tag : Option String} :
    Trace.fault? (Collector.tagTrace owner tag) = none ↔
      ∀ literal, tag = some literal → ∃ text, Literal.unquote literal = .ok text := by
  cases tag with
  | none => simp [Collector.tagTrace, Trace.fault?]
  | some literal =>
      rw [fault?_tagTrace_some]
      cases hread : Literal.unquote literal <;> simp [hread]

theorem fault?_nameTrace_eq_some_iff :
    Trace.fault? (Collector.nameTrace owner member) = some fault ↔
      (member.names = [] ∧ ¬ member.type.IsNamed) ∧
        fault = .missingEmbeddedName (member.type.kindName ++ " in " ++ owner) := by
  rw [← TypeExpr.innermost?_eq_none_iff]
  unfold Collector.nameTrace Collector.fieldNames
  cases member.names with
  | cons name rest => simp [Trace.fault?]
  | nil => cases member.type.innermost? <;> simp [Trace.fault?, eq_comm]

theorem fault?_nameTrace_eq_none_iff :
    Trace.fault? (Collector.nameTrace owner member) = none ↔
      ¬ (member.names = [] ∧ ¬ member.type.IsNamed) := by
  simp only [Option.eq_none_iff_forall_ne_some, ne_eq, fault?_nameTrace_eq_some_iff]
  exact ⟨fun hnone hname => hnone _ ⟨hname, rfl⟩, fun hname _ hboth => hname hboth.1⟩

/-- The trace of a member ends with the flaw that counts. -/
theorem fault?_eq_some_iff :
    Trace.fault? (Collector.memberTrace owner member) = some fault ↔
      FirstFlaw owner member fault := by
  simp only [Collector.memberTrace, Trace.fault?_append, Option.or_eq_some_iff,
    TypeExpr.fault?_trace_eq_none_iff, fault?_tagTrace_eq_some_iff, fault?_tagTrace_eq_none_iff,
    fault?_nameTrace_eq_some_iff]
  constructor
  · rintro (htype | ⟨htype, ⟨literal, htag, hfault⟩ | ⟨htag, ⟨hnames, hnamed⟩, rfl⟩⟩)
    · exact .type ((TypeExpr.fault?_trace _).symm.trans htype)
    · exact .tag htype htag hfault
    · exact .name htype htag hnames hnamed
  · intro hflaw
    cases hflaw with
    | type hflaw => exact .inl ((TypeExpr.fault?_trace _).trans hflaw)
    | tag htype htag hfault => exact .inr ⟨htype, .inl ⟨_, htag, hfault⟩⟩
    | name htype htag hnames hnamed => exact .inr ⟨htype, .inr ⟨htag, ⟨hnames, hnamed⟩, rfl⟩⟩

theorem fault?_eq_none_iff :
    Trace.fault? (Collector.memberTrace owner member) = none ↔ ¬ IsFlawed member := by
  simp only [Collector.memberTrace, Trace.fault?_append, Option.or_eq_none_iff,
    TypeExpr.fault?_trace_eq_none_iff, fault?_tagTrace_eq_none_iff, fault?_nameTrace_eq_none_iff]
  constructor
  · rintro ⟨htype, htag, hname⟩ hflawed
    cases hflawed with
    | type hflawed => exact htype hflawed
    | tag hsome hfault =>
        obtain ⟨text, htext⟩ := htag _ hsome
        cases htext.symm.trans hfault
    | name hnames hnamed => exact hname ⟨hnames, hnamed⟩
  · intro hsound
    refine ⟨fun htype => hsound (.type htype), fun literal htag => ?_,
      fun hname => hsound (.name hname.1 hname.2)⟩
    cases hread : Literal.unquote literal with
    | ok text => exact ⟨text, rfl⟩
    | error fault => exact absurd (.tag htag hread) hsound

end Member

/-! ## Faults of a sequence -/

namespace Trace

variable {α : Type} {f : α → Trace} {items : List α} {fault : Fault}

/-- The fault of traces one after another is that of the first one with a fault. -/
theorem fault?_flatMap_eq_some_iff :
    fault? (items.flatMap f) = some fault ↔
      ∃ before item after, items = before ++ item :: after ∧
        (∀ earlier ∈ before, fault? (f earlier) = none) ∧ fault? (f item) = some fault := by
  induction items with
  | nil => simp [fault?]
  | cons item rest ih =>
      rw [List.flatMap_cons, fault?_append, Option.or_eq_some_iff, ih]
      constructor
      · rintro (hitem | ⟨hitem, before, found, after, rfl, hbefore, hfound⟩)
        · exact ⟨[], item, rest, rfl, by simp, hitem⟩
        · refine ⟨item :: before, found, after, rfl, ?_, hfound⟩
          simpa [hitem] using hbefore
      · rintro ⟨before, found, after, hsplit, hbefore, hfound⟩
        cases before with
        | nil =>
            cases hsplit
            exact .inl hfound
        | cons first before =>
            cases hsplit
            rw [List.forall_mem_cons] at hbefore
            exact .inr ⟨hbefore.1, before, found, after, rfl, hbefore.2, hfound⟩

end Trace

/-! ## Fatal declarations -/

namespace Decl

/-- A declaration is fatal if it is that of an exported struct, which is incomplete or has a
flawed member, or of an exported alias with a flawed type. -/
inductive IsFatal : Decl → Prop
  | incomplete {name : String} {members : List FieldDecl} (hexported : isExported name = true) :
      IsFatal (.type ⟨name, .struct members true⟩)
  | member {name : String} {members : List FieldDecl} {incomplete : Bool} {member : FieldDecl}
      (hexported : isExported name = true) (hmember : member ∈ members)
      (hflawed : Member.IsFlawed member) : IsFatal (.type ⟨name, .struct members incomplete⟩)
  | target {name : String} {expr : TypeExpr} (hexported : isExported name = true)
      (haliased : expr.IsAliased) (hflawed : expr.IsFlawed) : IsFatal (.type ⟨name, expr⟩)

/-- The fault that counts in a declaration: in a struct incompleteness comes before the
members, and these count in their order. -/
inductive FirstFlaw : Decl → Fault → Prop
  | incomplete {name : String} {members : List FieldDecl} (hexported : isExported name = true) :
      FirstFlaw (.type ⟨name, .struct members true⟩) (.incompleteStruct name)
  | member {name : String} {before after : List FieldDecl} {member : FieldDecl} {fault : Fault}
      (hexported : isExported name = true)
      (hbefore : ∀ earlier ∈ before, ¬ Member.IsFlawed earlier)
      (hflaw : Member.FirstFlaw name member fault) :
      FirstFlaw (.type ⟨name, .struct (before ++ member :: after) false⟩) fault
  | target {name : String} {expr : TypeExpr} {fault : Fault} (hexported : isExported name = true)
      (haliased : expr.IsAliased) (hflaw : expr.flaws.head? = some fault) :
      FirstFlaw (.type ⟨name, expr⟩) fault

end Decl

namespace TypeDecl

variable {name : String} {members : List FieldDecl} {expr : TypeExpr} {fault : Fault}

theorem fault?_structTrace_eq_some_iff :
    Trace.fault? (structTrace ⟨name, .struct members false⟩) = some fault ↔
      ∃ before member after, members = before ++ member :: after ∧
        (∀ earlier ∈ before, ¬ Member.IsFlawed earlier) ∧ Member.FirstFlaw name member fault := by
  simp only [structTrace, Trace.fault?_flatMap_eq_some_iff, Member.fault?_eq_none_iff,
    Member.fault?_eq_some_iff]

theorem fault?_structTrace_eq_none_iff :
    Trace.fault? (structTrace ⟨name, .struct members false⟩) = none ↔
      ∀ member ∈ members, ¬ Member.IsFlawed member := by
  simp only [structTrace, Trace.fault?_flatMap_eq_none_iff, Member.fault?_eq_none_iff]

end TypeDecl

namespace Decl

variable {decl : Decl} {fault : Fault}

/-- The fault that counts is one of a fatal declaration. -/
theorem FirstFlaw.isFatal (hflaw : decl.FirstFlaw fault) : decl.IsFatal := by
  cases hflaw with
  | incomplete hexported => exact .incomplete hexported
  | member hexported hbefore hflaw => exact .member hexported (by simp) hflaw.isFlawed
  | target hexported haliased hflaw =>
      exact .target hexported haliased (TypeExpr.isFlawed_of_head? hflaw)

theorem captureTrace_of_isAliased {name : String} {expr : TypeExpr} (haliased : expr.IsAliased) :
    TypeDecl.captureTrace ⟨name, expr⟩ = expr.trace := by
  cases expr <;> first | rfl | cases haliased

theorem firstFlaw_of_fault? (hfault : Trace.fault? decl.trace = some fault) :
    decl.FirstFlaw fault := by
  cases decl with
  | const decl =>
      rw [trace_const, Collector.fault?_constTrace] at hfault
      cases hfault
  | func decl =>
      rw [trace_func] at hfault
      cases hfault
  | type decl =>
      obtain ⟨name, expr⟩ := decl
      rw [trace_type] at hfault
      split at hfault
      case isFalse => cases hfault
      case isTrue hexported =>
        cases expr with
        | struct members incomplete =>
            cases incomplete with
            | true =>
                cases hfault
                exact .incomplete hexported
            | false =>
                obtain ⟨before, member, after, rfl, hbefore, hflaw⟩ :=
                  TypeDecl.fault?_structTrace_eq_some_iff.mp hfault
                exact .member hexported hbefore hflaw
        | ident _ | selector _ _ | array _ | map _ _ | pointer _ =>
            exact .target hexported trivial ((TypeExpr.fault?_trace _).symm.trans hfault)
        | interface _ | func _ _ | chan _ _ | ellipsis _ | unsupported _ => cases hfault

/-- The trace of a declaration ends with the flaw that counts. -/
theorem fault?_eq_some_iff : Trace.fault? decl.trace = some fault ↔ decl.FirstFlaw fault := by
  refine ⟨firstFlaw_of_fault?, fun hflaw => ?_⟩
  cases hflaw with
  | incomplete hexported =>
      rw [trace_type, if_pos hexported]
      rfl
  | member hexported hbefore hflaw =>
      rw [trace_type, if_pos hexported]
      exact TypeDecl.fault?_structTrace_eq_some_iff.mpr ⟨_, _, _, rfl, hbefore, hflaw⟩
  | target hexported haliased hflaw =>
      rw [trace_type, if_pos hexported, captureTrace_of_isAliased haliased, TypeExpr.fault?_trace,
        hflaw]

/-- The trace of a declaration has no fault exactly if the declaration is not fatal. -/
theorem fault?_eq_none_iff : Trace.fault? decl.trace = none ↔ ¬ decl.IsFatal := by
  constructor
  · intro hnone hfatal
    cases hfatal with
    | incomplete hexported =>
        rw [trace_type, if_pos hexported] at hnone
        cases hnone
    | @member name members incomplete member hexported hmember hflawed =>
        rw [trace_type, if_pos hexported] at hnone
        cases incomplete with
        | true => cases hnone
        | false => exact TypeDecl.fault?_structTrace_eq_none_iff.mp hnone member hmember hflawed
    | target hexported haliased hflawed =>
        rw [trace_type, if_pos hexported, captureTrace_of_isAliased haliased] at hnone
        exact TypeExpr.fault?_trace_eq_none_iff.mp hnone hflawed
  · intro hsound
    cases hfault : Trace.fault? decl.trace with
    | none => rfl
    | some fault =>
        exact absurd (firstFlaw_of_fault? hfault).isFatal hsound

end Decl

/-! ## Whole files -/

/-- Reading breaks down over the path of an import. -/
def ImportDecl.IsStray (decl : ImportDecl) : Prop :=
  ∃ text, Literal.unquote decl.path = .error (.literal .loneCharacter text)

namespace ImportTable

theorem exists_add {decl : ImportDecl} (hdecl : ¬ decl.IsStray) (imports : ImportTable) :
    ∃ added, imports.add decl = .ok added := by
  unfold add
  split
  case h_1 => exact ⟨_, rfl⟩
  case h_2 text hread => exact absurd ⟨text, hread⟩ hdecl
  case h_3 => exact ⟨_, rfl⟩

theorem exists_ofDecls {decls : List ImportDecl} (hdecls : ∀ decl ∈ decls, ¬ decl.IsStray) :
    ∃ imports, ofDecls decls = .ok imports := by
  suffices hfold : ∀ table : ImportTable, ∃ imports, decls.foldlM add table = .ok imports from
    hfold Table.empty
  induction decls with
  | nil => exact fun table => ⟨table, rfl⟩
  | cons decl rest ih =>
      intro table
      rw [List.forall_mem_cons] at hdecls
      obtain ⟨added, hadd⟩ := exists_add hdecls.1 table
      obtain ⟨imports, hrest⟩ := ih hdecls.2 added
      exact ⟨imports, by rw [List.foldlM_cons, hadd]; exact hrest⟩

end ImportTable

/-- Collecting fails with the fault of the traces. -/
theorem GoFile.collect_eq_error_iff {name : String} {file : GoFile} {fault : Fault}
    (himports : ∀ decl ∈ file.imports, ¬ decl.IsStray) :
    file.collect name = .error fault ↔ Trace.fault? (Decl.traces file.decls) = some fault := by
  obtain ⟨imports, hdecls⟩ := ImportTable.exists_ofDecls himports
  rw [GoFile.collect_eq, Collector.start, hdecls]
  simp only [Except.bind, Trace.outcome]
  cases Trace.fault? (Decl.traces file.decls) <;> simp

/-- **Collecting fails exactly over flawed structs and aliases, and with the first flaw.**
There is a failure if and only if a declaration is fatal, and the fault is the one that counts
in the first such declaration. -/
theorem GoFile.collect_first (name : String) {file : GoFile}
    (himports : ∀ decl ∈ file.imports, ¬ decl.IsStray) :
    ((∃ fault, file.collect name = .error fault) ↔ ∃ decl ∈ file.decls, decl.IsFatal) ∧
      ∀ fault, file.collect name = .error fault ↔
        ∃ before decl after, file.decls = before ++ decl :: after ∧
          (∀ earlier ∈ before, ¬ earlier.IsFatal) ∧ decl.FirstFlaw fault := by
  have hfirst : ∀ fault, file.collect name = .error fault ↔
      ∃ before decl after, file.decls = before ++ decl :: after ∧
        (∀ earlier ∈ before, ¬ earlier.IsFatal) ∧ decl.FirstFlaw fault := by
    intro fault
    rw [GoFile.collect_eq_error_iff himports, Decl.traces, Trace.fault?_flatMap_eq_some_iff]
    simp only [Decl.fault?_eq_none_iff, Decl.fault?_eq_some_iff]
  refine ⟨⟨?_, ?_⟩, hfirst⟩
  · rintro ⟨fault, hcollect⟩
    obtain ⟨before, decl, after, hsplit, -, hflaw⟩ := (hfirst fault).mp hcollect
    exact ⟨decl, by simp [hsplit], hflaw.isFatal⟩
  · rintro ⟨decl, hdecl, hfatal⟩
    cases hfault : Trace.fault? (Decl.traces file.decls) with
    | some fault => exact ⟨fault, (GoFile.collect_eq_error_iff himports).mpr hfault⟩
    | none =>
        have hsound := Trace.fault?_flatMap_eq_none_iff.mp hfault decl hdecl
        exact absurd hfatal (Decl.fault?_eq_none_iff.mp hsound)

/-- Strange types where they do no harm, then a struct with three flaws in two fields, and an
incomplete struct after it. -/
def GoFile.flawed : GoFile where
  package := "p"
  imports := [⟨"\"broken", none⟩]
  decls := [
    .type ⟨"Reader", .interface [⟨[], .unsupported "union", none⟩]⟩,
    .type ⟨"hidden", .struct [] true⟩,
    .type ⟨"Box", .struct [⟨["At"], .array (.ident "int"), none⟩,
      ⟨[], .array (.ident "int"), some "json"⟩, ⟨["Of"], .unsupported "generic_type", none⟩] false⟩,
    .type ⟨"Late", .struct [] true⟩]

theorem GoFile.collect_first_flawed :
    (∀ decl ∈ GoFile.flawed.imports, ¬ decl.IsStray) ∧
      GoFile.flawed.collect "a.go" = .error (.literal .unterminated "json") := by
  have himports : ∀ decl ∈ GoFile.flawed.imports, ¬ decl.IsStray := by
    intro decl hdecl
    rintro ⟨text, hread⟩
    obtain rfl := List.mem_singleton.mp hdecl
    have hbroken : Literal.unquote "\"broken" = .error (.literal .unterminated "\"broken") := by cbv
    cases hbroken.symm.trans hread
  refine ⟨himports, ((GoFile.collect_first "a.go" himports).2 _).mpr
    ⟨GoFile.flawed.decls.take 2, _, [.type ⟨"Late", .struct [] true⟩], rfl, ?_, ?_⟩⟩
  · intro earlier hearlier hfatal
    rcases List.mem_pair.mp hearlier with rfl | rfl
    · cases hfatal with
      | target _ haliased _ => cases haliased
    · have hhidden : isExported "hidden" = false := by decide +kernel
      cases hfatal with
      | incomplete hexported => cases hhidden.symm.trans hexported
      | member hexported _ _ => cases hhidden.symm.trans hexported
      | target hexported _ _ => cases hhidden.symm.trans hexported
  · refine @Decl.FirstFlaw.member "Box" [⟨["At"], .array (.ident "int"), none⟩] _ _ _
      (by decide +kernel) ?_ (.tag ?_ rfl (by cbv))
    · intro earlier hearlier hflawed
      obtain rfl := List.mem_singleton.mp hearlier
      cases hflawed with
      | type hflawed => simp [TypeExpr.IsFlawed, TypeExpr.nodes] at hflawed
      | tag htag _ => cases htag
      | name hnames _ => cases hnames
    · simp [TypeExpr.IsFlawed, TypeExpr.nodes]

/-- An import whose path is a lone character, and an incomplete struct. -/
def GoFile.stray : GoFile where
  package := "p"
  imports := [⟨"é", none⟩]
  decls := [.type ⟨"Box", .struct [] true⟩]

/-- Over a stray import nothing is said about the first flaw of the declarations. -/
theorem GoFile.collect_stray :
    (∃ before decl after, GoFile.stray.decls = before ++ decl :: after ∧
      (∀ earlier ∈ before, ¬ earlier.IsFatal) ∧ decl.FirstFlaw (.incompleteStruct "Box")) ∧
      GoFile.stray.collect "a.go" ≠ .error (.incompleteStruct "Box") ∧
      GoFile.stray.collect "a.go" = .error (.literal .loneCharacter "é") := by
  have hcollect : GoFile.stray.collect "a.go" = .error (.literal .loneCharacter "é") := by cbv
  refine ⟨⟨[], _, [], rfl, by simp, .incomplete (by decide +kernel)⟩, ?_, hcollect⟩
  rw [hcollect]
  simp

end GoAtlas
