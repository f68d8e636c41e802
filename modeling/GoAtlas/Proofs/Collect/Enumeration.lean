import GoAtlas.Collect.Basic

/-!
# Which constants are recorded

A constant enumerates a value of an alias if it is written as one literal, bare or inside
wrappers and conversions, and names the alias by its declared type or by its outermost
conversion (`ConstDecl.Spells`).  Every such constant is recorded with its literal.

The converse needs a hypothesis.  What is recorded is decided by the first literal, or the
first call, found anywhere in the initializer (`ConstDecl.Enumerates`), so a shift such as
`1 << 3` in a typed constant is recorded with the literal `1` (`Collector.addConst_shifted`).
Only where an initializer nowhere branches, into several operands or arguments or into a
callee that is not a type, is the literal found the whole of it (`ValueExpr.Plain`).
-/

namespace GoAtlas

/-! ## Searching an initializer -/

namespace ValueExpr

mutual

/-- The literals of an initializer, from left to right. -/
def literals : ValueExpr → List String
  | .literal text => [text]
  | .call callee args => callee.literals ++ literalsAll args
  | .compound operands => literalsAll operands
  | .ident _ | .iota | .selector _ _ => []

def literalsAll : List ValueExpr → List String
  | [] => []
  | value :: rest => value.literals ++ literalsAll rest

end

mutual

/-- The calls of an initializer that are not inside other calls, from left to right. -/
def outerCalls : ValueExpr → List (ValueExpr × List ValueExpr)
  | .call callee args => [(callee, args)]
  | .compound operands => outerCallsAll operands
  | .literal _ | .ident _ | .iota | .selector _ _ => []

def outerCallsAll : List ValueExpr → List (ValueExpr × List ValueExpr)
  | [] => []
  | value :: rest => value.outerCalls ++ outerCallsAll rest

end

mutual

theorem firstLiteral?_eq : ∀ value : ValueExpr, value.firstLiteral? = value.literals.head?
  | .literal _ => by simp [firstLiteral?, literals]
  | .ident _ => by simp [firstLiteral?, literals]
  | .iota => by simp [firstLiteral?, literals]
  | .selector _ _ => by simp [firstLiteral?, literals]
  | .call callee args => by
      rw [firstLiteral?, literals, List.head?_append, firstLiteral?_eq callee,
        firstLiteralIn?_eq args]
      cases callee.literals.head? <;> rfl
  | .compound operands => by rw [firstLiteral?, literals, firstLiteralIn?_eq operands]

theorem firstLiteralIn?_eq :
    ∀ values : List ValueExpr, firstLiteralIn? values = (literalsAll values).head?
  | [] => by simp [firstLiteralIn?, literalsAll]
  | value :: rest => by
      rw [firstLiteralIn?, literalsAll, List.head?_append, firstLiteral?_eq value,
        firstLiteralIn?_eq rest]
      cases value.literals.head? <;> rfl

end

mutual

theorem firstCall?_eq : ∀ value : ValueExpr, value.firstCall? = value.outerCalls.head?
  | .call _ _ => by simp [firstCall?, outerCalls]
  | .literal _ => by simp [firstCall?, outerCalls]
  | .ident _ => by simp [firstCall?, outerCalls]
  | .iota => by simp [firstCall?, outerCalls]
  | .selector _ _ => by simp [firstCall?, outerCalls]
  | .compound operands => by rw [firstCall?, outerCalls, firstCallIn?_eq operands]

theorem firstCallIn?_eq :
    ∀ values : List ValueExpr, firstCallIn? values = (outerCallsAll values).head?
  | [] => by simp [firstCallIn?, outerCallsAll]
  | value :: rest => by
      rw [firstCallIn?, outerCallsAll, List.head?_append, firstCall?_eq value,
        firstCallIn?_eq rest]
      cases value.outerCalls.head? <;> rfl

end

/-! ## Literals inside calls -/

theorem mem_literalsAll {values : List ValueExpr} {text : String} :
    text ∈ literalsAll values ↔ ∃ value ∈ values, text ∈ value.literals := by
  induction values with
  | nil => simp [literalsAll]
  | cons value rest ih => simp [literalsAll, ih]

mutual

/-- The literals in the arguments of an outer call are literals of the initializer. -/
theorem mem_literals_of_outerCalls {call : ValueExpr × List ValueExpr} {text : String} :
    ∀ {value : ValueExpr}, call ∈ value.outerCalls → text ∈ literalsAll call.2 →
      text ∈ value.literals
  | .call callee args, hcall, htext => by
      obtain rfl : call = (callee, args) := by simpa [outerCalls] using hcall
      simp [literals, htext]
  | .compound operands, hcall, htext => by
      simp only [outerCalls, literals] at hcall ⊢
      exact mem_literalsAll_of_outerCallsAll hcall htext
  | .literal _, hcall, _ | .ident _, hcall, _ | .iota, hcall, _ | .selector _ _, hcall, _ => by
      simp [outerCalls] at hcall

theorem mem_literalsAll_of_outerCallsAll {call : ValueExpr × List ValueExpr} {text : String} :
    ∀ {values : List ValueExpr}, call ∈ outerCallsAll values → text ∈ literalsAll call.2 →
      text ∈ literalsAll values
  | [], hcall, _ => by simp [outerCallsAll] at hcall
  | value :: rest, hcall, htext => by
      simp only [outerCallsAll, List.mem_append] at hcall
      simp only [literalsAll, List.mem_append]
      exact hcall.imp (fun hvalue => mem_literals_of_outerCalls hvalue htext)
        fun hrest => mem_literalsAll_of_outerCallsAll hrest htext

end

/-! ## Initializers that are one literal -/

/-- The callee of a conversion: a named type, in parentheses or not, or a type without a
name, of which nothing is recorded. -/
inductive IsTypeName : ValueExpr → Prop
  | ident (name : String) : IsTypeName (.ident name)
  | selector (package name : String) : IsTypeName (.selector package name)
  | nameless : IsTypeName (.compound [])
  | wrapper {callee : ValueExpr} (hcallee : callee.IsTypeName) : IsTypeName (.compound [callee])

/-- Through any number of wrappers and conversions, an initializer is one literal. -/
inductive Wraps (text : String) : ValueExpr → Prop
  | literal : Wraps text (.literal text)
  | wrapper {value : ValueExpr} (hwraps : value.Wraps text) : Wraps text (.compound [value])
  | conversion {callee value : ValueExpr} (hcallee : callee.IsTypeName)
      (hwraps : value.Wraps text) : Wraps text (.call callee [value])

/-- The outermost call of an initializer converts its one argument to the type `typeName`. -/
inductive Converts (typeName : String) : ValueExpr → ValueExpr → Prop
  | call (arg : ValueExpr) : Converts typeName (.call (.ident typeName) [arg]) arg
  | wrapper {value arg : ValueExpr} (hconverts : value.Converts typeName arg) :
      Converts typeName (.compound [value]) arg

/-- An initializer nowhere branches: wrappers and conversions around something without
parts. -/
inductive Plain : ValueExpr → Prop
  | literal (text : String) : Plain (.literal text)
  | ident (name : String) : Plain (.ident name)
  | iota : Plain .iota
  | selector (package name : String) : Plain (.selector package name)
  | nameless : Plain (.compound [])
  | wrapper {value : ValueExpr} (hplain : value.Plain) : Plain (.compound [value])
  | conversion {callee value : ValueExpr} (hcallee : callee.IsTypeName)
      (hplain : value.Plain) : Plain (.call callee [value])

variable {value arg callee : ValueExpr} {typeName text : String}

theorem IsTypeName.literals_eq (hcallee : callee.IsTypeName) : callee.literals = [] := by
  induction hcallee with
  | ident _ | selector _ _ | nameless => simp [literals, literalsAll]
  | wrapper _ ih => simp [literals, literalsAll, ih]

theorem Wraps.literals_eq (hwraps : value.Wraps text) : value.literals = [text] := by
  induction hwraps with
  | literal => simp [literals]
  | wrapper _ ih => simp [literals, literalsAll, ih]
  | conversion hcallee _ ih => simp [literals, literalsAll, hcallee.literals_eq, ih]

theorem Converts.outerCalls_eq (hconverts : value.Converts typeName arg) :
    value.outerCalls = [(.ident typeName, [arg])] := by
  induction hconverts with
  | call _ => simp [outerCalls]
  | wrapper _ ih => simp [outerCalls, outerCallsAll, ih]

/-- A literal found in a plain initializer is all of it. -/
theorem Plain.wraps (hplain : value.Plain) (hfirst : value.literals.head? = some text) :
    value.Wraps text := by
  induction hplain with
  | literal _ =>
      simp only [literals, List.head?_cons, Option.some.injEq] at hfirst
      exact hfirst ▸ .literal
  | ident _ | iota | selector _ _ | nameless => simp [literals, literalsAll] at hfirst
  | wrapper _ ih => exact .wrapper (ih (by simpa [literals, literalsAll] using hfirst))
  | conversion hcallee _ ih =>
      exact .conversion hcallee
        (ih (by simpa [literals, literalsAll, hcallee.literals_eq] using hfirst))

/-- A conversion found in a plain initializer is its outermost call, and its argument is
plain again. -/
theorem Plain.converts (hplain : value.Plain)
    (hfirst : value.outerCalls.head? = some (.ident typeName, [arg])) :
    value.Converts typeName arg ∧ arg.Plain := by
  -- Wrappers are passed on the way to the first call; behind it the search does not go on.
  induction hplain with
  | literal _ | ident _ | iota | selector _ _ | nameless =>
      simp [outerCalls, outerCallsAll] at hfirst
  | wrapper _ ih =>
      obtain ⟨hconverts, harg⟩ := ih (by simpa [outerCalls, outerCallsAll] using hfirst)
      exact ⟨.wrapper hconverts, harg⟩
  | conversion _ hplain _ =>
      simp only [outerCalls, List.head?_cons, Option.some.injEq, Prod.mk.injEq, List.cons.injEq,
        and_true] at hfirst
      obtain ⟨rfl, rfl⟩ := hfirst
      exact ⟨.call _, hplain⟩

end ValueExpr

/-! ## What a constant says -/

namespace ConstDecl

/-- The constant is one literal `text` and names the alias `typeName`, by its type or by its
outermost conversion. -/
inductive Spells (decl : ConstDecl) (typeName text : String) : Prop
  | typed {value : ValueExpr} (htype : decl.type = some (.ident typeName))
      (hvalues : decl.values = [value]) (hwraps : value.Wraps text)
  | converted {value arg : ValueExpr} (htype : decl.type = none) (hvalues : decl.values = [value])
      (hconverts : value.Converts typeName arg) (hwraps : arg.Wraps text)

/-- The first literal of the constant is `text`, and the constant names the alias `typeName`,
by its type or by its first call; then only the argument of the call is searched. -/
inductive Enumerates (decl : ConstDecl) (typeName text : String) : Prop
  | typed {value : ValueExpr} (htype : decl.type = some (.ident typeName))
      (hvalues : decl.values = [value]) (hfirst : value.literals.head? = some text)
  | converted {value arg : ValueExpr} (htype : decl.type = none) (hvalues : decl.values = [value])
      (hcall : value.outerCalls.head? = some (.ident typeName, [arg]))
      (hfirst : arg.literals.head? = some text)

variable {decl : ConstDecl} {typeName text : String}

theorem Spells.enumerates (hspells : decl.Spells typeName text) :
    decl.Enumerates typeName text := by
  cases hspells with
  | typed htype hvalues hwraps => exact .typed htype hvalues (by rw [hwraps.literals_eq]; rfl)
  | converted htype hvalues hconverts hwraps =>
      exact .converted htype hvalues (by rw [hconverts.outerCalls_eq]; rfl)
        (by rw [hwraps.literals_eq]; rfl)

theorem Enumerates.spells (henumerates : decl.Enumerates typeName text)
    (hplain : ∀ value ∈ decl.values, value.Plain) : decl.Spells typeName text := by
  cases henumerates with
  | typed htype hvalues hfirst =>
      have hvalue := hplain _ (hvalues ▸ List.mem_singleton_self _)
      exact .typed htype hvalues (hvalue.wraps hfirst)
  | converted htype hvalues hcall hfirst =>
      have hvalue := hplain _ (hvalues ▸ List.mem_singleton_self _)
      obtain ⟨hconverts, harg⟩ := hvalue.converts hcall
      exact .converted htype hvalues hconverts (harg.wraps hfirst)

/-- Without a literal there is nothing to record. -/
theorem Enumerates.exists_mem_literals (henumerates : decl.Enumerates typeName text) :
    ∃ value ∈ decl.values, text ∈ value.literals := by
  cases henumerates with
  | @typed value htype hvalues hfirst =>
      exact ⟨value, by simp [hvalues], List.mem_of_head? hfirst⟩
  | @converted value arg htype hvalues hcall hfirst =>
      refine ⟨value, by simp [hvalues], ValueExpr.mem_literals_of_outerCalls
        (List.mem_of_head? hcall) ?_⟩
      exact ValueExpr.mem_literalsAll.mpr ⟨arg, by simp, List.mem_of_head? hfirst⟩

end ConstDecl

namespace ConstReading

variable {value callee : ValueExpr} {args : List ValueExpr} {type typeName text : String}

theorem ofTyped_eq_iff : ofTyped type value = .enumerates typeName text ↔
    type = typeName ∧ value.literals.head? = some text := by
  unfold ofTyped
  split
  · simp [ValueExpr.literals]
  · rw [ValueExpr.firstLiteral?_eq]
    cases value.literals.head? <;> simp

theorem ofConversion_eq_iff : ofConversion callee args = .enumerates typeName text ↔
    callee = .ident typeName ∧ ∃ arg, args = [arg] ∧ arg.literals.head? = some text := by
  unfold ofConversion
  split
  case h_1 type arg =>
    rw [ValueExpr.firstLiteral?_eq]
    cases hfirst : arg.literals.head? <;> simp [hfirst]
  case h_2 hmany =>
    simp only [reduceCtorEq, false_iff]
    rintro ⟨-, arg, rfl, -⟩
    exact hmany arg rfl
  case h_3 hother _ =>
    simp only [reduceCtorEq, false_iff]
    rintro ⟨rfl, -⟩
    exact hother typeName rfl

theorem ofUntyped_eq_iff : ofUntyped value = .enumerates typeName text ↔
    ∃ arg, value.outerCalls.head? = some (.ident typeName, [arg]) ∧
      arg.literals.head? = some text := by
  unfold ofUntyped
  rw [ValueExpr.firstCall?_eq]
  cases hcall : value.outerCalls.head? with
  | none => cases value <;> simp
  | some call =>
      obtain ⟨callee, args⟩ := call
      simp only [ofConversion_eq_iff, Option.some.injEq, Prod.mk.injEq]
      constructor
      · rintro ⟨rfl, arg, rfl, hfirst⟩
        exact ⟨arg, ⟨rfl, rfl⟩, hfirst⟩
      · rintro ⟨arg, ⟨rfl, rfl⟩, hfirst⟩
        exact ⟨rfl, arg, rfl, hfirst⟩

end ConstReading

theorem ConstDecl.reading_eq_enumerates_iff {decl : ConstDecl} {typeName text : String} :
    decl.reading = .enumerates typeName text ↔ decl.Enumerates typeName text := by
  constructor
  · intro hreading
    unfold ConstDecl.reading at hreading
    split at hreading
    case h_1 value type hvalues htype =>
      obtain ⟨rfl, hfirst⟩ := ConstReading.ofTyped_eq_iff.mp hreading
      exact .typed htype hvalues hfirst
    case h_3 value hvalues htype =>
      obtain ⟨arg, hcall, hfirst⟩ := ConstReading.ofUntyped_eq_iff.mp hreading
      exact .converted htype hvalues hcall hfirst
    all_goals cases hreading
  · intro henumerates
    unfold ConstDecl.reading
    cases henumerates with
    | typed htype hvalues hfirst =>
        rw [htype, hvalues]
        exact ConstReading.ofTyped_eq_iff.mpr ⟨rfl, hfirst⟩
    | converted htype hvalues hcall hfirst =>
        rw [htype, hvalues]
        exact ConstReading.ofUntyped_eq_iff.mpr ⟨_, hcall, hfirst⟩

/-! ## What the collector does with a constant -/

namespace Collector

/-- The values of the alias `name`, if there is one. -/
def candidates? (c : Collector) (name : String) : Option (List AliasValue) :=
  (c.file.aliases.get? name).map (·.candidates)

/-- A constant goes to its alias if that is declared, else it waits; all other values stay
where they are. -/
structure Records (c : Collector) (value : AliasValue) (result : Placement × Collector) : Prop where
  placement : result.1 = if (c.candidates? value.typeName).isSome then .attached else .pending
  candidates : ∀ name, result.2.candidates? name =
    (c.candidates? name).map fun known => if name = value.typeName then known ++ [value] else known
  pending : result.2.file.pending =
    if (c.candidates? value.typeName).isSome then c.file.pending else c.file.pending ++ [value]

/-- A constant is left out, with a report or without. -/
structure Skips (c : Collector) (result : Placement × Collector) : Prop where
  placement : result.1 = .skipped
  file : result.2.file = c.file
  waiting : result.2.waiting = c.waiting
  lastSeq : result.2.lastSeq = c.lastSeq

theorem records_addValue (c : Collector) (decl : ConstDecl) (typeName text : String) :
    c.Records ⟨typeName, decl.name, text, c.lastSeq + 1⟩ (c.addValue decl typeName text) := by
  unfold addValue
  cases hget : c.file.aliases.get? typeName with
  | some known =>
      refine ⟨by simp [candidates?, hget], fun name => ?_, by simp [candidates?, hget]⟩
      by_cases hname : name = typeName
      · simp [candidates?, hname, hget]
      · cases hother : c.file.aliases.get? name <;> simp [candidates?, hname, hother]
  | none =>
      refine ⟨by simp [candidates?, hget], fun name => ?_, by simp [candidates?, hget]⟩
      by_cases hname : name = typeName
      · simp [candidates?, hname, hget]
      · cases hother : c.file.aliases.get? name <;> simp [candidates?, hname, hother]

theorem skips_addConst {c : Collector} {decl : ConstDecl}
    (hother : ∀ typeName text, ¬ decl.Enumerates typeName text) : c.Skips (c.addConst decl) := by
  unfold addConst
  cases hreading : decl.reading with
  | enumerates typeName text =>
      exact absurd (ConstDecl.reading_eq_enumerates_iff.mp hreading) (hother typeName text)
  | unrelated | complex _ => exact ⟨rfl, rfl, rfl, rfl⟩

/-- A constant is recorded, under the alias it names and with its first literal, exactly if it
enumerates a value.  Constants that are one literal do; constants without literals do not,
and of those whose initializers nowhere branch no others do. -/
theorem addConst_exact (c : Collector) (decl : ConstDecl) :
    (∀ typeName text, decl.Enumerates typeName text →
      c.Records ⟨typeName, decl.name, text, c.lastSeq + 1⟩ (c.addConst decl)) ∧
    ((∀ typeName text, ¬ decl.Enumerates typeName text) → c.Skips (c.addConst decl)) ∧
    (∀ typeName text, decl.Spells typeName text → decl.Enumerates typeName text) ∧
    ((∀ value ∈ decl.values, value.literals = []) →
      ∀ typeName text, ¬ decl.Enumerates typeName text) ∧
    ((∀ value ∈ decl.values, value.Plain) →
      ∀ typeName text, decl.Enumerates typeName text → decl.Spells typeName text) := by
  refine ⟨fun typeName text henumerates => ?_, skips_addConst, fun _ _ hspells =>
    hspells.enumerates, fun hbare _ text henumerates => ?_, fun hplain _ _ henumerates =>
    henumerates.spells hplain⟩
  · unfold addConst
    rw [ConstDecl.reading_eq_enumerates_iff.mpr henumerates]
    exact records_addValue c decl typeName text
  · obtain ⟨value, hvalue, htext⟩ := henumerates.exists_mem_literals
    simp [hbare value hvalue] at htext

/-- A file that declares the type `Level`. -/
def leveled : Collector where
  file := {
    name := "level.go"
    aliases := Table.empty.insert "Level" { name := "Level", target := .primitive "int" } }

/-- `const Low = Level((-1))`. -/
def converted : ConstDecl :=
  ⟨"Low", none, [.call (.ident "Level") [.compound [.literal "-1"]]]⟩

theorem addConst_exact_converted :
    converted.Spells "Level" "-1" ∧ (∀ value ∈ converted.values, value.Plain) ∧
      (leveled.addConst converted).1 = .attached ∧
      (leveled.addConst converted).2.candidates? "Level" = some [⟨"Level", "Low", "-1", 1⟩] := by
  have hspells : converted.Spells "Level" "-1" :=
    .converted rfl rfl (.call _) (.wrapper .literal)
  obtain ⟨hrecords, -, henumerates, -, -⟩ := addConst_exact leveled converted
  have hattached := hrecords "Level" "-1" (henumerates "Level" "-1" hspells)
  have hknown : leveled.candidates? "Level" = some [] := by decide +kernel
  refine ⟨hspells, ?_, ?_, ?_⟩
  · intro value hvalue
    obtain rfl := List.mem_singleton.mp hvalue
    exact .conversion (.ident _) (.wrapper (.literal _))
  · rw [hattached.placement, hknown]
    rfl
  · rw [hattached.candidates, hknown]
    rfl

/-- `const High Level = 1 << 3`. -/
def shifted : ConstDecl :=
  ⟨"High", some (.ident "Level"), [.compound [.literal "1", .literal "3"]]⟩

/-- A shift is not one literal, but it is recorded with its first operand. -/
theorem addConst_shifted :
    (∀ typeName text, ¬ shifted.Spells typeName text) ∧
      (leveled.addConst shifted).1 = .attached ∧
      (leveled.addConst shifted).2.candidates? "Level" = some [⟨"Level", "High", "1", 1⟩] := by
  refine ⟨fun typeName text hspells => ?_, by decide +kernel, by decide +kernel⟩
  cases hspells with
  | typed _ hvalues hwraps =>
      -- No shape of a single literal has two operands.
      obtain rfl := List.singleton_inj.mp hvalues
      cases hwraps
  | converted htype _ _ _ => cases htype

end Collector

end GoAtlas
