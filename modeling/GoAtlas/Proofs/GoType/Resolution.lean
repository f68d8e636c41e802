import GoAtlas.Proofs.GoType.Nodes
import Mathlib.Data.List.Forall2

/-!
# How an expression is resolved

Resolving goes through an expression from left to right, the whole before its parts, and does not
go into a struct body that could not be read to its end.  `TypeExpr.reached` lists what it would
come to on this way if nothing stopped it, and the list decides everything
(`TypeExpr.resolve_exact`).  The first node in it without a counterpart in the model is the fault,
and the imports marked are those that are named before it.  If there is no such node, the result is
the type that the expression denotes (`TypeExpr.Denotes`).

A fault deep in one member keeps all members after it from being looked at, with the marks of those
before it already made.  How this comes about does not matter here: resolving is running the trace
of the expression (`TypeExpr.resolve_eq`), and the trace holds the events at the nodes that are
reached (`TypeExpr.trace_eq_events`), so that what remains are statements about one list.
-/

namespace GoAtlas

/-- The imports are the same, those with a local name in `p` are marked, and nothing else about
them is changed. -/
structure ImportTable.MarkedUnder (p : String → Prop) (imports marked : ImportTable) : Prop where
  keys : marked.keys = imports.keys
  set : ∀ key entry, imports.get? key = some entry → p key →
    marked.get? key = some { entry with needed := true }
  kept : ∀ key, ¬ p key → marked.get? key = imports.get? key

theorem ImportTable.markedUnder_needAll {p : String → Prop} {names : List String}
    (hnames : ∀ name, name ∈ names ↔ p name) (imports : ImportTable) :
    imports.MarkedUnder p (imports.needAll names) where
  keys := keys_needAll imports names
  set key entry hentry hkey := by
    rw [get?_needAll, hentry, Option.map_some, if_pos ((hnames key).mpr hkey)]
  kept key hkey := by
    rw [get?_needAll]
    simp [mt (hnames key).mp hkey]

namespace TypeExpr

/-! ## What is reached -/

/-- The expressions that stand directly in an expression, from left to right.  There are none in a
struct body that could not be read to its end. -/
def parts : TypeExpr → List TypeExpr
  | .ident _ | .selector _ _ | .unsupported _ | .struct _ true => []
  | .array elem | .pointer elem | .chan _ elem | .ellipsis elem => [elem]
  | .map key value => [key, value]
  | .struct fields false => fields.map Member.type
  | .interface elements => elements.map Member.type
  | .func params results => params.map Member.type ++ results.map Member.type

theorem sizeOf_lt_of_mem_types {members : List (Member TypeExpr)} {type : TypeExpr}
    (htype : type ∈ members.map Member.type) : sizeOf type < sizeOf members := by
  obtain ⟨member, hmember, rfl⟩ := List.mem_map.mp htype
  exact Member.sizeOf_type_lt hmember

theorem sizeOf_lt_of_mem_parts {expr part : TypeExpr} (hpart : part ∈ expr.parts) :
    sizeOf part < sizeOf expr := by
  cases expr with
  | ident _ | selector _ _ | unsupported _ => cases hpart
  | array elem | pointer elem | chan _ elem | ellipsis elem =>
      obtain rfl := List.mem_singleton.mp hpart
      simp only [array.sizeOf_spec, pointer.sizeOf_spec, chan.sizeOf_spec, ellipsis.sizeOf_spec]
      omega
  | map key value =>
      simp only [map.sizeOf_spec]
      rcases List.mem_pair.mp hpart with rfl | rfl
      · omega
      · omega
  | struct fields incomplete =>
      cases incomplete with
      | true => cases hpart
      | false =>
          have hless := sizeOf_lt_of_mem_types hpart
          simp only [struct.sizeOf_spec]
          omega
  | interface elements =>
      have hless := sizeOf_lt_of_mem_types hpart
      simp only [interface.sizeOf_spec]
      omega
  | func params results =>
      simp only [func.sizeOf_spec]
      rcases List.mem_append.mp hpart with hparam | hresult
      · have hless := sizeOf_lt_of_mem_types hparam
        omega
      · have hless := sizeOf_lt_of_mem_types hresult
        omega

/-- An expression and everything that is reached in it, from left to right, the whole before its
parts. -/
def reached (expr : TypeExpr) : List TypeExpr :=
  expr :: expr.parts.attach.flatMap fun part => part.1.reached
termination_by sizeOf expr
decreasing_by exact sizeOf_lt_of_mem_parts part.2

theorem reached_eq (expr : TypeExpr) : expr.reached = expr :: expr.parts.flatMap reached := by
  rw [reached, List.flatMap_subtype (g := reached) (by simp), List.unattach_attach]

/-! ## Traces of what is reached -/

theorem traceMembers_eq (members : List (Member TypeExpr)) :
    traceMembers members = (members.map Member.type).flatMap trace := by
  induction members with
  | nil => simp [traceMembers]
  | cons member rest ih => simp [traceMembers, ih]

/-- The trace of an expression has its own event in front of those of its parts. -/
theorem trace_eq_parts (expr : TypeExpr) :
    expr.trace = expr.event?.toList ++ expr.parts.flatMap trace := by
  cases expr with
  | struct fields incomplete =>
      cases incomplete <;> simp [trace, event?, flaw?, parts, traceMembers_eq]
  | _ => simp [trace, event?, flaw?, parts, traceMembers_eq]

/-- The trace of an expression holds the events at the nodes that are reached. -/
theorem trace_eq_events (expr : TypeExpr) : expr.trace = expr.reached.filterMap event? := by
  induction expr using reached.induct with
  | case1 expr ih =>
      have hparts : expr.parts.flatMap trace =
          (expr.parts.flatMap reached).filterMap event? := by
        rw [List.filterMap_flatMap]
        exact List.flatMap_congr fun part hpart => ih ⟨part, hpart⟩
      rw [trace_eq_parts, reached_eq, hparts]
      cases hevent : expr.event? with
      | none => rw [List.filterMap_cons_none hevent]; rfl
      | some event => rw [List.filterMap_cons_some hevent]; rfl

/-! ## What a visit meets -/

/-- A node stands in a list with no flawed one before it, so that a visit which ends with the first
flaw meets it. -/
def IsMetIn (nodes : List TypeExpr) (node : TypeExpr) : Prop :=
  ∃ before after, nodes = before ++ node :: after ∧ ∀ earlier ∈ before, earlier.flaw? = none

variable {nodes rest : List TypeExpr} {node head : TypeExpr} {package : String} {fault : Fault}

theorem not_isMetIn_nil : ¬ IsMetIn [] node := by
  rintro ⟨before, after, heq, -⟩
  simp at heq

theorem isMetIn_cons_iff :
    IsMetIn (head :: rest) node ↔ head = node ∨ head.flaw? = none ∧ IsMetIn rest node := by
  constructor
  · rintro ⟨before, after, heq, hbefore⟩
    cases before with
    | nil => exact .inl (List.cons.inj heq).1
    | cons first before =>
        obtain ⟨rfl, rfl⟩ := List.cons.inj heq
        obtain ⟨hfirst, hbefore⟩ := List.forall_mem_cons.mp hbefore
        exact .inr ⟨hfirst, before, after, rfl, hbefore⟩
  · rintro (rfl | ⟨hhead, before, after, rfl, hbefore⟩)
    · exact ⟨[], rest, rfl, fun _ hmem => absurd hmem List.not_mem_nil⟩
    · exact ⟨head :: before, after, rfl, List.forall_mem_cons.mpr ⟨hhead, hbefore⟩⟩

/-- Where nothing is flawed, everything is met. -/
theorem isMetIn_iff_mem (hsound : ∀ node ∈ nodes, node.flaw? = none) :
    IsMetIn nodes node ↔ node ∈ nodes := by
  constructor
  · rintro ⟨before, after, rfl, -⟩
    simp
  · intro hnode
    obtain ⟨before, after, rfl⟩ := List.append_of_mem hnode
    exact ⟨before, after, rfl, fun _ hearlier => hsound _ (List.mem_append_left _ hearlier)⟩

/-- The first fault in the events at some nodes is that of the flawed node that is met. -/
theorem fault?_events_eq_some_iff :
    Trace.fault? (nodes.filterMap event?) = some fault ↔
      ∃ node, IsMetIn nodes node ∧ node.flaw? = some fault := by
  rw [fault?_events, List.head?_filterMap, List.findSome?_eq_some_iff]
  constructor
  · rintro ⟨before, node, after, heq, hflaw, hbefore⟩
    exact ⟨node, ⟨before, after, heq, hbefore⟩, hflaw⟩
  · rintro ⟨node, ⟨before, after, heq, hbefore⟩, hflaw⟩
    exact ⟨before, node, after, heq, hflaw, hbefore⟩

theorem exists_fault?_events_iff :
    (∃ fault, Trace.fault? (nodes.filterMap event?) = some fault) ↔
      (∃ kind, .unsupported kind ∈ nodes) ∨ ∃ fields, .struct fields true ∈ nodes := by
  rw [← exists_mem_filterMap_flaw?_iff, fault?_events]
  cases nodes.filterMap flaw? with
  | nil => simp
  | cons first rest => simp

theorem fault?_events_eq_none_iff :
    Trace.fault? (nodes.filterMap event?) = none ↔ ∀ node ∈ nodes, node.flaw? = none := by
  rw [fault?_events, List.head?_eq_none_iff, List.filterMap_eq_nil_iff]

/-- The events at some nodes need the packages that are named in what is met. -/
theorem mem_needs_events :
    package ∈ Trace.needs (nodes.filterMap event?) ↔
      ∃ name, IsMetIn nodes (.selector package name) := by
  induction nodes with
  | nil => simp [Trace.needs, not_isMetIn_nil]
  | cons head rest ih =>
      simp only [isMetIn_cons_iff]
      cases hflaw : head.flaw? with
      | some fault =>
          have hother : ∀ name, head ≠ .selector package name := by
            rintro name rfl
            cases hflaw
          rw [List.filterMap_cons_some (event?_of_flaw? hflaw)]
          simp [Trace.needs, hother]
      | none =>
          rw [List.filterMap_cons]
          -- All that a node without flaw can do is to need a package.
          cases head <;> simp [event?, hflaw, Trace.needs, ih, exists_or, eq_comm]

/-! ## Denoted types -/

/-- A type has the shape of an expression: constructor by constructor, with one entry for each
member, and without the names and tags of members. -/
@[mk_iff denotes_iff]
inductive Denotes : TypeExpr → GoType → Prop
  | ident {name : String} : Denotes (.ident name) (.primitive name)
  | selector {package name : String} :
      Denotes (.selector package name) (.selector package name)
  | array {elem : TypeExpr} {elemType : GoType} (helem : Denotes elem elemType) :
      Denotes (.array elem) (.array elemType)
  | map {key value : TypeExpr} {keyType valueType : GoType} (hkey : Denotes key keyType)
      (hvalue : Denotes value valueType) : Denotes (.map key value) (.map keyType valueType)
  | pointer {target : TypeExpr} {targetType : GoType} (htarget : Denotes target targetType) :
      Denotes (.pointer target) (.pointer targetType)
  | struct {fields : List (Member TypeExpr)} {types : List GoType}
      (hfields : List.Forall₂ (fun member type => Denotes (Member.type member) type) fields types) :
      Denotes (.struct fields false) (.struct types)
  | interface {elements : List (Member TypeExpr)} {types : List GoType}
      (helements :
        List.Forall₂ (fun member type => Denotes (Member.type member) type) elements types) :
      Denotes (.interface elements) (.interface types)
  | func {params results : List (Member TypeExpr)} {args returned : List GoType}
      (hparams : List.Forall₂ (fun member type => Denotes (Member.type member) type) params args)
      (hresults :
        List.Forall₂ (fun member type => Denotes (Member.type member) type) results returned) :
      Denotes (.func params results) (.func args returned)
  | chan {dir : ChanDir} {elem : TypeExpr} {elemType : GoType} (helem : Denotes elem elemType) :
      Denotes (.chan dir elem) (.channel elemType dir)
  | ellipsis {elem : TypeExpr} {elemType : GoType} (helem : Denotes elem elemType) :
      Denotes (.ellipsis elem) (.ellipsis elemType)

mutual

/-- An expression without fault denotes its shape, and any other expression denotes nothing. -/
theorem denotes_iff_shape : ∀ (expr : TypeExpr) (type : GoType),
    expr.Denotes type ↔ Trace.fault? expr.trace = none ∧ type = expr.shape
  | .ident _, _ => by
      rw [denotes_iff]
      simp [trace, shape, Trace.fault?]
  | .selector _ _, _ => by
      rw [denotes_iff]
      simp [trace, shape, Trace.fault?]
  | .array elem, _ => by
      rw [denotes_iff]
      simp [trace, shape, denotes_iff_shape elem]
  | .map key value, _ => by
      rw [denotes_iff]
      simp [trace, shape, denotes_iff_shape key, denotes_iff_shape value, Trace.fault?_append,
        and_assoc]
  | .pointer target, _ => by
      rw [denotes_iff]
      simp [trace, shape, denotes_iff_shape target]
  | .struct _ true, _ => by
      rw [denotes_iff]
      simp [trace, Trace.fault?]
  | .struct fields false, _ => by
      rw [denotes_iff]
      simp [trace, shape, denoteAll_iff_shapes fields]
  | .interface elements, _ => by
      rw [denotes_iff]
      simp [trace, shape, denoteAll_iff_shapes elements]
  | .func params results, _ => by
      rw [denotes_iff]
      simp [trace, shape, denoteAll_iff_shapes params, denoteAll_iff_shapes results,
        Trace.fault?_append, and_assoc]
  | .chan _ elem, _ => by
      rw [denotes_iff]
      simp [trace, shape, denotes_iff_shape elem]
  | .ellipsis elem, _ => by
      rw [denotes_iff]
      simp [trace, shape, denotes_iff_shape elem]
  | .unsupported _, _ => by
      rw [denotes_iff]
      simp [trace, Trace.fault?]

theorem denoteAll_iff_shapes : ∀ (members : List (Member TypeExpr)) (types : List GoType),
    List.Forall₂ (fun member type => Denotes (Member.type member) type) members types ↔
      Trace.fault? (traceMembers members) = none ∧ types = shapes members
  | [], _ => by simp [traceMembers, shapes, Trace.fault?]
  | ⟨_, type, _⟩ :: rest, _ => by
      rw [List.forall₂_cons_left_iff]
      simp [traceMembers, shapes, denotes_iff_shape type, denoteAll_iff_shapes rest,
        Trace.fault?_append, and_assoc]

end

/-! ## Resolving -/

/-- How an expression is resolved in a file with the given imports. -/
structure ResolvesExactly (expr : TypeExpr) (imports : ImportTable) : Prop where
  /-- It fails exactly if something of a kind that is not modelled is reached, or a struct body
  that could not be read to its end. -/
  fails : (∃ fault, (expr.resolve imports).1 = .error fault) ↔
    (∃ kind, .unsupported kind ∈ expr.reached) ∨ ∃ fields, .struct fields true ∈ expr.reached
  /-- The fault is that of the first such node. -/
  first : ∀ fault, (expr.resolve imports).1 = .error fault ↔
    ∃ node, IsMetIn expr.reached node ∧ node.flaw? = some fault
  /-- A type that comes out is the one that the expression denotes. -/
  denoted : ∀ type, (expr.resolve imports).1 = .ok type ↔ expr.Denotes type
  /-- Whether it fails or not, the marks set are those of the packages named before the first such
  node. -/
  marked : imports.MarkedUnder
    (fun package => ∃ name, IsMetIn expr.reached (.selector package name)) (expr.resolve imports).2
  /-- If it does not fail, nothing that is reached is left out. -/
  whole : ∀ type, (expr.resolve imports).1 = .ok type →
    ∀ node, IsMetIn expr.reached node ↔ node ∈ expr.reached

theorem resolve_eq_error_iff {expr : TypeExpr} {imports : ImportTable} :
    (expr.resolve imports).1 = .error fault ↔ Trace.fault? expr.trace = some fault := by
  rw [resolve_eq, settle, Trace.outcome]
  cases Trace.fault? expr.trace <;> simp

theorem resolve_eq_ok_iff {expr : TypeExpr} {imports : ImportTable} {type : GoType} :
    (expr.resolve imports).1 = .ok type ↔ Trace.fault? expr.trace = none ∧ type = expr.shape := by
  rw [resolve_eq, settle, Trace.outcome]
  cases Trace.fault? expr.trace <;> simp [eq_comm]

/-- **Resolving is exact.**  Every expression is resolved up to the first node without a
counterpart that is reached in it, and into the type that it denotes if there is none. -/
theorem resolve_exact (expr : TypeExpr) (imports : ImportTable) :
    expr.ResolvesExactly imports where
  fails := by
    simp only [resolve_eq_error_iff, trace_eq_events]
    exact exists_fault?_events_iff
  first fault := by
    rw [resolve_eq_error_iff, trace_eq_events]
    exact fault?_events_eq_some_iff
  denoted type := by
    rw [resolve_eq_ok_iff, denotes_iff_shape]
  marked := by
    rw [resolve_eq, trace_eq_events]
    exact ImportTable.markedUnder_needAll (fun package => mem_needs_events) imports
  whole type htype node := by
    obtain ⟨hnone, -⟩ := resolve_eq_ok_iff.mp htype
    rw [trace_eq_events] at hnone
    exact isMetIn_iff_mem (fault?_events_eq_none_iff.mp hnone)

example (imports : ImportTable) :
    resolve (.func [⟨["at"], .selector "time" "Time", none⟩]
      [⟨[], .struct [⟨["of"], .unsupported "generic_type", none⟩,
        ⟨["id"], .selector "bson" "ID", none⟩] false, none⟩]) imports =
      (.error (.unsupportedType "generic_type"), imports.need "time") := rfl

end TypeExpr

end GoAtlas
