import GoAtlas.Proofs.GoType.Trace

/-!
# The parts of a type expression

`TypeExpr.nodes` lists an expression and everything that stands in it, at any depth, in the
order in which one meets it from left to right, the whole before its parts.  What an
expression refers to and what in it has no counterpart are statements about this list, which
say nothing about how the expression is visited.

A visit stops at the first fault and never enters an incomplete struct, so its trace is not
the list of the events at the nodes; but the two agree up to the first fault
(`TypeExpr.agrees_trace`), and nothing after it counts.
-/

namespace GoAtlas

/-! ## Traces that agree up to the first fault -/

namespace Trace

/-- Two traces have the same outcome and need the same packages. -/
structure Agrees (first second : Trace) : Prop where
  fault? : fault? first = fault? second
  needs : needs first = needs second

variable {first first' second second' : Trace}

theorem Agrees.append (hfirst : Agrees first first') (hsecond : Agrees second second') :
    Agrees (first ++ second) (first' ++ second') := by
  refine ⟨by rw [fault?_append, fault?_append, hfirst.fault?, hsecond.fault?], ?_⟩
  cases hfault : Trace.fault? first with
  | some fault =>
      rw [needs_append_of_fault hfault, needs_append_of_fault (hfirst.fault? ▸ hfault),
        hfirst.needs]
  | none =>
      rw [needs_append hfault, needs_append (hfirst.fault? ▸ hfault), hfirst.needs,
        hsecond.needs]

/-- Nothing after a fault counts. -/
theorem agrees_fault (fault : Fault) (rest : Trace) :
    Agrees [.fault fault] (.fault fault :: rest) :=
  ⟨rfl, rfl⟩

/-! ## Traces one after another -/

variable {α : Type} {f : α → Trace} {items : List α} {package : String}

theorem fault?_flatMap_eq_none_iff :
    fault? (items.flatMap f) = none ↔ ∀ item ∈ items, fault? (f item) = none := by
  induction items with
  | nil => simp [fault?]
  | cons item rest ih =>
      rw [List.flatMap_cons, fault?_append, Option.or_eq_none_iff, ih, List.forall_mem_cons]

/-- Without a fault, traces one after another need what each of them needs. -/
theorem mem_needs_flatMap (hnone : fault? (items.flatMap f) = none) :
    package ∈ needs (items.flatMap f) ↔ ∃ item ∈ items, package ∈ needs (f item) := by
  rw [mem_needs hnone, List.mem_flatMap]
  refine exists_congr fun item => and_congr_right fun hitem => ?_
  exact (mem_needs (fault?_flatMap_eq_none_iff.mp hnone item hitem)).symm

end Trace

namespace TypeExpr

mutual

/-- An expression and what stands in it at any depth, from left to right, the whole before
its parts. -/
def nodes : TypeExpr → List TypeExpr
  | .ident name => [.ident name]
  | .selector package name => [.selector package name]
  | .array elem => .array elem :: elem.nodes
  | .map key value => .map key value :: (key.nodes ++ value.nodes)
  | .pointer target => .pointer target :: target.nodes
  | .struct fields incomplete => .struct fields incomplete :: nodesAll fields
  | .interface elements => .interface elements :: nodesAll elements
  | .func params results => .func params results :: (nodesAll params ++ nodesAll results)
  | .chan dir elem => .chan dir elem :: elem.nodes
  | .ellipsis elem => .ellipsis elem :: elem.nodes
  | .unsupported kind => [.unsupported kind]

def nodesAll : List (Member TypeExpr) → List TypeExpr
  | [] => []
  | ⟨_, type, _⟩ :: rest => type.nodes ++ nodesAll rest

end

theorem nodesAll_eq (members : List (Member TypeExpr)) :
    nodesAll members = members.flatMap fun member => member.type.nodes := by
  induction members with
  | nil => simp [nodesAll]
  | cons member rest ih => simp [nodesAll, ih]

/-! ## What a node means by itself -/

/-- Why the model has no counterpart for an expression, apart from what stands in it. -/
def flaw? : TypeExpr → Option Fault
  | .struct _ true => some (.incompleteStruct "anonymous struct")
  | .unsupported kind => some (.unsupportedType kind)
  | _ => none

/-- The event at a node. -/
def event? : TypeExpr → Option Event
  | .selector package _ => some (.need package)
  | expr => expr.flaw?.map .fault

/-- Everything in an expression that has no counterpart, in the order in which it is met. -/
def flaws (expr : TypeExpr) : List Fault :=
  expr.nodes.filterMap flaw?

mutual

/-- Up to the first fault, the trace of an expression holds the events at its nodes. -/
theorem agrees_trace : ∀ expr : TypeExpr, Trace.Agrees expr.trace (expr.nodes.filterMap event?)
  | .ident _ => by
      simp only [trace, nodes]
      exact ⟨rfl, rfl⟩
  | .selector _ _ => by
      simp only [trace, nodes]
      exact ⟨rfl, rfl⟩
  | .array elem => by
      simp only [trace, nodes]
      exact agrees_trace elem
  | .map key value => by
      have hown : event? (.map key value) = none := rfl
      simp only [trace, nodes, List.filterMap_cons_none hown, List.filterMap_append]
      exact (agrees_trace key).append (agrees_trace value)
  | .pointer target => by
      simp only [trace, nodes]
      exact agrees_trace target
  | .struct _ true => by
      simp only [trace, nodes]
      exact Trace.agrees_fault _ _
  | .struct fields false => by
      simp only [trace, nodes]
      exact agrees_traceMembers fields
  | .interface elements => by
      simp only [trace, nodes]
      exact agrees_traceMembers elements
  | .func params results => by
      have hown : event? (.func params results) = none := rfl
      simp only [trace, nodes, List.filterMap_cons_none hown, List.filterMap_append]
      exact (agrees_traceMembers params).append (agrees_traceMembers results)
  | .chan _ elem => by
      simp only [trace, nodes]
      exact agrees_trace elem
  | .ellipsis elem => by
      simp only [trace, nodes]
      exact agrees_trace elem
  | .unsupported _ => by
      simp only [trace, nodes]
      exact ⟨rfl, rfl⟩

theorem agrees_traceMembers : ∀ members : List (Member TypeExpr),
    Trace.Agrees (traceMembers members) ((nodesAll members).filterMap event?)
  | [] => by
      simp only [traceMembers, nodesAll]
      exact ⟨rfl, rfl⟩
  | ⟨_, type, _⟩ :: rest => by
      simp only [traceMembers, nodesAll, List.filterMap_append]
      exact (agrees_trace type).append (agrees_traceMembers rest)

end

/-! ## References and flaws -/

/-- Somewhere in the expression stands a name of a package. -/
def RefersTo (package : String) (expr : TypeExpr) : Prop :=
  ∃ name, .selector package name ∈ expr.nodes

/-- Somewhere in the expression stands something of a kind that is not modelled, or a struct
body that could not be read to its end. -/
def IsFlawed (expr : TypeExpr) : Prop :=
  (∃ kind, .unsupported kind ∈ expr.nodes) ∨ ∃ fields, .struct fields true ∈ expr.nodes

variable {expr : TypeExpr} {package : String} {fault : Fault}

theorem event?_eq_need :
    expr.event? = some (.need package) ↔ ∃ name, expr = .selector package name := by
  cases expr with
  | selector other name => simp [event?]
  | struct fields incomplete => cases incomplete <;> simp [event?, flaw?]
  | _ => simp [event?, flaw?]

theorem flaw?_eq_some_iff :
    expr.flaw? = some fault ↔
      (∃ fields, expr = .struct fields true ∧ fault = .incompleteStruct "anonymous struct") ∨
        ∃ kind, expr = .unsupported kind ∧ fault = .unsupportedType kind := by
  cases expr with
  | struct fields incomplete => cases incomplete <;> simp [flaw?, eq_comm]
  | unsupported kind => simp [flaw?, eq_comm]
  | _ => simp [flaw?]

/-- Where a node is flawed, this is what happens there. -/
theorem event?_of_flaw? (hflaw : expr.flaw? = some fault) : expr.event? = some (.fault fault) := by
  rcases flaw?_eq_some_iff.mp hflaw with ⟨fields, rfl, rfl⟩ | ⟨kind, rfl, rfl⟩ <;> rfl

theorem fault?_events (exprs : List TypeExpr) :
    Trace.fault? (exprs.filterMap event?) = (exprs.filterMap flaw?).head? := by
  induction exprs with
  | nil => rfl
  | cons expr rest ih =>
      cases hflaw : expr.flaw? with
      | some fault =>
          rw [List.filterMap_cons_some hflaw, List.filterMap_cons_some (event?_of_flaw? hflaw)]
          rfl
      | none =>
          rw [List.filterMap_cons_none hflaw, ← ih, List.filterMap_cons]
          -- All that a node without flaw can do is to need a package.
          cases expr <;> simp [event?, hflaw, Trace.fault?]

/-- A visit ends with the first flaw. -/
theorem fault?_trace (expr : TypeExpr) : Trace.fault? expr.trace = expr.flaws.head? :=
  (agrees_trace expr).fault?.trans (fault?_events expr.nodes)

/-- Without a fault, a visit needs the packages that the expression refers to. -/
theorem mem_needs_trace (hnone : Trace.fault? expr.trace = none) :
    package ∈ Trace.needs expr.trace ↔ expr.RefersTo package := by
  have hagrees := agrees_trace expr
  rw [hagrees.needs, Trace.mem_needs (hagrees.fault? ▸ hnone), List.mem_filterMap]
  simp only [event?_eq_need, RefersTo]
  constructor
  · rintro ⟨node, hnode, name, rfl⟩
    exact ⟨name, hnode⟩
  · rintro ⟨name, hnode⟩
    exact ⟨_, hnode, name, rfl⟩

/-- Of some nodes one is flawed exactly if one is of a kind that is not modelled, or a struct body
that could not be read to its end. -/
theorem exists_mem_filterMap_flaw?_iff {nodes : List TypeExpr} :
    (∃ fault, fault ∈ nodes.filterMap flaw?) ↔
      (∃ kind, .unsupported kind ∈ nodes) ∨ ∃ fields, .struct fields true ∈ nodes := by
  simp only [List.mem_filterMap, flaw?_eq_some_iff]
  constructor
  · rintro ⟨fault, node, hnode, ⟨fields, rfl, -⟩ | ⟨kind, rfl, -⟩⟩
    · exact Or.inr ⟨fields, hnode⟩
    · exact Or.inl ⟨kind, hnode⟩
  · rintro (⟨kind, hnode⟩ | ⟨fields, hnode⟩)
    · exact ⟨_, _, hnode, Or.inr ⟨kind, rfl, rfl⟩⟩
    · exact ⟨_, _, hnode, Or.inl ⟨fields, rfl, rfl⟩⟩

/-- An expression has flaws exactly if there is a flawed node in it. -/
theorem exists_mem_flaws_iff : (∃ fault, fault ∈ expr.flaws) ↔ expr.IsFlawed :=
  exists_mem_filterMap_flaw?_iff

theorem fault?_trace_eq_none_iff : Trace.fault? expr.trace = none ↔ ¬ expr.IsFlawed := by
  rw [fault?_trace, List.head?_eq_none_iff, ← exists_mem_flaws_iff, not_exists,
    List.eq_nil_iff_forall_not_mem]

end TypeExpr

end GoAtlas
