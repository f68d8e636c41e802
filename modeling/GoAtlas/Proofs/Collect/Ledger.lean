import GoAtlas.Proofs.Collect.Trace
import Mathlib.Data.List.Nodup

/-!
# The ledger of a collector

A collector spreads the constants it records over three places: the candidates and
sources of the aliases, the values pending, and the declarations waiting with them.
All three are views of one list, the *ledger* of the constants recorded so far with
their numbers.  An alias holds the records that name it, and the records that name no
alias are pending, both in the order of the ledger (`Collector.Keeps`).

That operations keep it so is one lemma for each thing that can be entered, and for
everything else a frame condition (`Keeps.congr`).  So whatever has been done to a
collector, the ledger of the constants taken in tells what it holds (`keeps_steps`).
-/

namespace GoAtlas

/-- A recorded constant: the value it enumerates, and its declaration. -/
structure Recorded where
  value : AliasValue
  decl : ConstDecl

/-- The record of a constant that enumerates a value, under the given number. -/
def ConstDecl.recorded? (decl : ConstDecl) (seq : Nat) : Option Recorded :=
  match decl.reading with
  | .enumerates typeName literal => some ⟨⟨typeName, decl.name, literal, seq⟩, decl⟩
  | _ => none

/-- The records of constants in the order in which they are taken in, numbered from
`last + 1` on. -/
def ledgerFrom (last : Nat) : List ConstDecl → List Recorded
  | [] => []
  | decl :: rest =>
      match decl.recorded? (last + 1) with
      | some record => record :: ledgerFrom (last + 1) rest
      | none => ledgerFrom last rest

/-- The records of constants in the order in which they are taken in. -/
def ledger (decls : List ConstDecl) : List Recorded :=
  ledgerFrom 0 decls

theorem ledgerFrom_concat (last : Nat) (decls : List ConstDecl) (decl : ConstDecl) :
    ledgerFrom last (decls ++ [decl]) = ledgerFrom last decls ++
      (decl.recorded? (last + (ledgerFrom last decls).length + 1)).toList := by
  induction decls generalizing last with
  | nil =>
      simp only [List.nil_append, ledgerFrom, List.length_nil, Nat.add_zero]
      cases decl.recorded? (last + 1) <;> rfl
  | cons first rest ih =>
      simp only [List.cons_append, ledgerFrom]
      cases first.recorded? (last + 1) with
      | none => exact ih last
      | some record =>
          simp only [ih, List.cons_append, List.length_cons]
          rw [show last + 1 + (ledgerFrom (last + 1) rest).length + 1 =
            last + ((ledgerFrom (last + 1) rest).length + 1) + 1 by omega]

namespace Collector

/-- The records that name the alias `name`. -/
def recordsOf (name : String) (records : List Recorded) : List Recorded :=
  records.filter fun record => record.value.typeName == name

/-- The records that name none of the aliases. -/
def unclaimed (aliases : Table Alias) (records : List Recorded) : List Recorded :=
  records.filter fun record => !aliases.contains record.value.typeName

/-- The alias has the given records for its values. -/
structure Holds (known : Alias) (records : List Recorded) : Prop where
  candidates : known.candidates = records.map Recorded.value
  sources : known.sources = records.map Recorded.decl

/-- The collector holds the given records and no others. -/
structure Keeps (c : Collector) (records : List Recorded) : Prop where
  numbered : records.map (·.value.seq) = List.range' 1 c.lastSeq
  aliases : ∀ name known, c.file.aliases.get? name = some known →
    Holds known (recordsOf name records)
  pending : c.file.pending = (unclaimed c.file.aliases records).map Recorded.value
  waiting : c.waiting =
    (unclaimed c.file.aliases records).map fun record => (record.value.seq, record.decl)

variable {c c' : Collector} {records : List Recorded}

/-- What touches neither aliases nor constants keeps the records. -/
theorem Keeps.congr (hkeeps : c.Keeps records) (haliases : c'.file.aliases = c.file.aliases)
    (hpending : c'.file.pending = c.file.pending) (hwaiting : c'.waiting = c.waiting)
    (hlast : c'.lastSeq = c.lastSeq) : c'.Keeps records where
  numbered := by rw [hlast]; exact hkeeps.numbered
  aliases := by rw [haliases]; exact hkeeps.aliases
  pending := by rw [hpending, haliases]; exact hkeeps.pending
  waiting := by rw [hwaiting, haliases]; exact hkeeps.waiting

theorem Keeps.length_eq (hkeeps : c.Keeps records) : records.length = c.lastSeq := by
  simpa using congrArg List.length hkeeps.numbered

theorem Keeps.nodup (hkeeps : c.Keeps records) : (records.map (·.value.seq)).Nodup := by
  rw [hkeeps.numbered]
  exact List.nodup_range'

/-! ## Records of one alias -/

theorem recordsOf_concat_self {name : String} {record : Recorded}
    (hname : record.value.typeName = name) :
    recordsOf name (records ++ [record]) = recordsOf name records ++ [record] := by
  simp [recordsOf, hname]

theorem recordsOf_concat_other {name : String} {record : Recorded}
    (hname : record.value.typeName ≠ name) :
    recordsOf name (records ++ [record]) = recordsOf name records := by
  simp [recordsOf, hname]

/-- The records that a new alias claims are exactly those that name it. -/
theorem filter_unclaimed {aliases : Table Alias} {name : String}
    (hnew : aliases.contains name = false) :
    (unclaimed aliases records).filter (fun record => record.value.typeName == name) =
      recordsOf name records := by
  rw [unclaimed, recordsOf, List.filter_filter]
  refine List.filter_congr fun record _ => ?_
  by_cases hname : record.value.typeName = name
  · simp [hname, hnew]
  · simp [hname]

theorem unclaimed_insert (aliases : Table Alias) (name : String) (known : Alias) :
    unclaimed (aliases.insert name known) records =
      (unclaimed aliases records).filter fun record => !(record.value.typeName == name) := by
  rw [unclaimed, unclaimed, List.filter_filter]
  refine List.filter_congr fun record _ => ?_
  rw [Table.contains_insert]
  by_cases hname : record.value.typeName = name <;> simp [hname]

/-- An alias that is known claims nothing more. -/
theorem unclaimed_insert_of_contains {aliases : Table Alias} {name : String}
    (hknown : aliases.contains name = true) (known : Alias) :
    unclaimed (aliases.insert name known) records = unclaimed aliases records := by
  refine List.filter_congr fun record _ => ?_
  rw [Table.contains_insert]
  by_cases hname : record.value.typeName = name <;> simp [hname, hknown]

/-! ## Waiting declarations -/

theorem lookup_waiting {record : Recorded} (hnodup : (records.map (·.value.seq)).Nodup)
    (hmem : record ∈ records) :
    (records.map fun record => (record.value.seq, record.decl)).lookup record.value.seq =
      some record.decl := by
  induction records with
  | nil => cases hmem
  | cons first rest ih =>
      rw [List.map_cons, List.nodup_cons] at hnodup
      rw [List.map_cons, List.lookup_cons]
      rcases List.mem_cons.mp hmem with rfl | hmem
      · simp
      · have hne : record.value.seq ≠ first.value.seq := by
          intro heq
          exact hnodup.1 (heq ▸ List.mem_map.mpr ⟨record, hmem, rfl⟩)
        rw [beq_eq_false_iff_ne.mpr hne]
        exact ih hnodup.2 hmem

theorem filterMap_lookup_waiting {part : List Recorded}
    (hnodup : (records.map (·.value.seq)).Nodup) (hsubset : part ⊆ records) :
    (part.map Recorded.value).filterMap (fun value =>
        (records.map fun record => (record.value.seq, record.decl)).lookup value.seq) =
      part.map Recorded.decl := by
  rw [List.filterMap_map]
  calc part.filterMap _
      = part.filterMap fun record => some record.decl :=
        List.filterMap_congr fun record hrecord => lookup_waiting hnodup (hsubset hrecord)
    _ = part.map Recorded.decl := by rw [List.filterMap_eq_map']

/-- Of waiting declarations, those whose numbers are taken are the ones of the records
taken. -/
theorem filter_waiting {p : Recorded → Bool} (hnodup : (records.map (·.value.seq)).Nodup) :
    (records.map fun record => (record.value.seq, record.decl)).filter (fun entry =>
        !(((records.filter p).map Recorded.value).map AliasValue.seq).contains entry.1) =
      (records.filter fun record => !p record).map fun record =>
        (record.value.seq, record.decl) := by
  rw [List.filter_map]
  congr 1
  refine List.filter_congr fun record hrecord => ?_
  -- Numbers are unique, so a number is taken only with its own record.
  have htaken : record.value.seq ∈ ((records.filter p).map Recorded.value).map AliasValue.seq ↔
      p record = true := by
    rw [List.map_map, List.mem_map]
    constructor
    · rintro ⟨other, hother, heq⟩
      rw [List.mem_filter] at hother
      rw [← List.inj_on_of_nodup_map hnodup hother.1 hrecord heq]
      exact hother.2
    · intro hp
      exact ⟨record, List.mem_filter.mpr ⟨hrecord, hp⟩, rfl⟩
  cases hp : p record with
  | true =>
      rw [hp, eq_self, iff_true] at htaken
      simpa using htaken
  | false =>
      rw [hp] at htaken
      simpa using htaken

/-! ## One operation -/

theorem keeps_note (hkeeps : c.Keeps records) (trace : Trace) : (c.note trace).Keeps records :=
  hkeeps.congr rfl rfl rfl rfl

/-- Aliases after an insertion: the one inserted, and all others as before. -/
theorem holds_insert {aliases : Table Alias} {name : String} {new : Alias}
    (hnew : Holds new (recordsOf name records))
    (hothers : ∀ other known, other ≠ name → aliases.get? other = some known →
      Holds known (recordsOf other records)) :
    ∀ other known, (aliases.insert name new).get? other = some known →
      Holds known (recordsOf other records) := by
  intro other known hget
  rw [Table.get?_insert] at hget
  split at hget
  · rename_i heq
    cases hget
    rw [heq]
    exact hnew
  · rename_i hne
    exact hothers other known hne hget

/-- An alias that is known keeps its records, a new one claims those that name it. -/
theorem keeps_placeAlias (hkeeps : c.Keeps records) (name : String) (target : GoType) :
    (c.placeAlias name target).2.Keeps records := by
  have hothers : ∀ other known, other ≠ name → c.file.aliases.get? other = some known →
      Holds known (recordsOf other records) :=
    fun other known _ => hkeeps.aliases other known
  unfold placeAlias
  cases hget : c.file.aliases.get? name with
  | some known =>
      have hholds := hkeeps.aliases name known hget
      have hcontains : c.file.aliases.contains name = true := Table.contains_of_get? hget
      refine ⟨hkeeps.numbered, ?_, ?_, ?_⟩
      · exact holds_insert ⟨hholds.candidates, hholds.sources⟩ hothers
      · simp only [unclaimed_insert_of_contains hcontains]
        exact hkeeps.pending
      · simp only [unclaimed_insert_of_contains hcontains]
        exact hkeeps.waiting
  | none =>
      have hnew : c.file.aliases.contains name = false := Table.contains_eq_false_iff.mpr hget
      have hnodup : ((unclaimed c.file.aliases records).map (·.value.seq)).Nodup :=
        hkeeps.nodup.sublist (List.filter_sublist.map _)
      -- No other alias can have claimed them, so all records of the name are pending.
      have hmatched : c.file.pending.filter (fun value => value.typeName == name) =
          (recordsOf name records).map Recorded.value := by
        rw [hkeeps.pending, List.filter_map, ← filter_unclaimed hnew]
        rfl
      have hsubset : recordsOf name records ⊆ unclaimed c.file.aliases records := by
        rw [← filter_unclaimed hnew]
        exact List.filter_subset_self _
      simp only [List.partition_eq_filter_filter, hmatched]
      refine ⟨hkeeps.numbered, holds_insert ⟨rfl, ?_⟩ hothers, ?_, ?_⟩
      · simp only [hkeeps.waiting]
        exact filterMap_lookup_waiting hnodup hsubset
      · simp only [hkeeps.pending, unclaimed_insert, List.filter_map]
        rfl
      · simp only [hkeeps.waiting, unclaimed_insert]
        rw [← filter_unclaimed hnew]
        exact filter_waiting hnodup

/-- A recorded value goes to its alias, or waits if there is none, under the next
number. -/
theorem keeps_addValue (hkeeps : c.Keeps records) (decl : ConstDecl) (typeName literal : String) :
    (c.addValue decl typeName literal).2.Keeps
      (records ++ [⟨⟨typeName, decl.name, literal, c.lastSeq + 1⟩, decl⟩]) := by
  obtain ⟨record, hrecord⟩ : ∃ record : Recorded,
      record = ⟨⟨typeName, decl.name, literal, c.lastSeq + 1⟩, decl⟩ := ⟨_, rfl⟩
  have htype : record.value.typeName = typeName := by rw [hrecord]
  have hnumbered : (records ++ [record]).map (·.value.seq) = List.range' 1 (c.lastSeq + 1) := by
    rw [List.map_append, hkeeps.numbered, List.range'_1_concat, Nat.add_comm 1, hrecord]
    rfl
  have hothers : ∀ other known, other ≠ typeName → c.file.aliases.get? other = some known →
      Holds known (recordsOf other (records ++ [record])) := by
    intro other known hne hget
    rw [recordsOf_concat_other fun heq => hne (heq.symm.trans htype)]
    exact hkeeps.aliases other known hget
  -- From here on only the alias that the record names matters.
  rw [← hrecord]
  unfold addValue
  cases hget : c.file.aliases.get? typeName with
  | some known =>
      have hholds := hkeeps.aliases typeName known hget
      have hcontains : c.file.aliases.contains typeName = true := Table.contains_of_get? hget
      have hunclaimed : unclaimed c.file.aliases (records ++ [record]) =
          unclaimed c.file.aliases records := by
        simp [unclaimed, htype, hcontains]
      refine ⟨hnumbered, holds_insert ?_ hothers, ?_, ?_⟩
      · rw [recordsOf_concat_self htype]
        constructor
        · rw [List.map_append, ← hholds.candidates, hrecord]
          rfl
        · rw [List.map_append, ← hholds.sources, hrecord]
          rfl
      · simp only [unclaimed_insert_of_contains hcontains, hunclaimed]
        exact hkeeps.pending
      · simp only [unclaimed_insert_of_contains hcontains, hunclaimed]
        exact hkeeps.waiting
  | none =>
      have hnew : c.file.aliases.contains typeName = false :=
        Table.contains_eq_false_iff.mpr hget
      have hunclaimed : unclaimed c.file.aliases (records ++ [record]) =
          unclaimed c.file.aliases records ++ [record] := by
        simp [unclaimed, htype, hnew]
      refine ⟨hnumbered, ?_, ?_, ?_⟩
      · intro name found hfound
        have hne : name ≠ typeName := by
          rintro rfl
          rw [hget] at hfound
          cases hfound
        exact hothers name found hne hfound
      · simp only [hunclaimed, List.map_append, ← hkeeps.pending]
        rw [hrecord]
        rfl
      · simp only [hunclaimed, List.map_append, ← hkeeps.waiting]
        rw [hrecord]
        rfl

end Collector

/-! ## Any number of operations -/

/-- The record that an entry makes under the given number. -/
def Entry.recorded? (seq : Nat) : Entry → Option Recorded
  | .value decl typeName literal => some ⟨⟨typeName, decl.name, literal, seq⟩, decl⟩
  | _ => none

theorem ConstDecl.recorded?_entry (decl : ConstDecl) (seq : Nat) :
    decl.entry.recorded? seq = decl.recorded? seq := by
  unfold ConstDecl.entry ConstDecl.recorded?
  cases decl.reading <;> rfl

namespace Collector

/-- The constant that an operation takes in. -/
def Step.constant? : Step → Option ConstDecl
  | .value decl => some decl
  | .add (.const decl) => some decl
  | _ => none

variable {c : Collector} {records : List Recorded}

theorem keeps_enter (hkeeps : c.Keeps records) (entry : Entry) :
    (c.enter entry).Keeps (records ++ (entry.recorded? (c.lastSeq + 1)).toList) := by
  have hsame : records ++ (none : Option Recorded).toList = records := List.append_nil _
  match entry with
  | .struct model => exact hsame.symm ▸ hkeeps.congr rfl rfl rfl rfl
  | .interface name => exact hsame.symm ▸ hkeeps.congr rfl rfl rfl rfl
  | .alias name target => exact hsame.symm ▸ keeps_placeAlias hkeeps name target
  | .value decl typeName literal => exact keeps_addValue hkeeps decl typeName literal
  | .nothing => exact hsame.symm ▸ hkeeps

theorem Step.recorded?_entry (step : Step) (seq : Nat) :
    step.entry.recorded? seq = step.constant?.bind fun decl => decl.recorded? seq := by
  match step with
  | .value decl => exact decl.recorded?_entry seq
  | .add (.const decl) =>
      simp only [Step.entry, Decl.entry_const]
      exact decl.recorded?_entry seq
  | .add (.func decl) =>
      simp only [Step.entry, Decl.entry_func]
      rfl
  | .add (.type decl) =>
      rcases Decl.type_cases decl with ⟨hentry, -⟩ | ⟨hentry, -⟩ | ⟨hentry, -⟩ | ⟨hentry, -⟩ <;>
        simp only [Step.entry, hentry] <;> rfl
  | .struct decl => rfl
  | .interface decl => rfl
  | .alias decl => rfl

theorem Step.fault?_trace {step : Step} {decl : ConstDecl}
    (hconstant : step.constant? = some decl) : Trace.fault? step.trace = none := by
  match step with
  | .value decl => exact fault?_constTrace decl
  | .add (.const decl) =>
      simp only [Step.trace, Decl.trace]
      cases (Decl.const decl).role? with
      | none => rfl
      | some role =>
          cases role with
          | aliasValue => exact fault?_constTrace decl
          | _ => rfl

/-- An operation adds the record of the constant that it takes in, and no other. -/
theorem keeps_step (hkeeps : c.Keeps records) (step : Step) :
    (c.step step).Keeps (records ++
      (step.constant?.bind fun decl => decl.recorded? (c.lastSeq + 1)).toList) := by
  rw [step_eq]
  cases hfault : Trace.fault? step.trace with
  | none =>
      rw [take_of_none hfault, ← step.recorded?_entry]
      exact keeps_enter (keeps_note hkeeps step.trace) step.entry
  | some fault =>
      -- Nothing is at fault in a constant, so this operation takes in none.
      have hconstant : step.constant? = none := by
        cases hconst : step.constant? with
        | none => rfl
        | some decl =>
            rw [Step.fault?_trace hconst] at hfault
            cases hfault
      rw [take_of_fault hfault, hconstant, Option.bind_none, Option.toList_none, List.append_nil]
      exact keeps_note hkeeps step.trace

/-- **The ledger tells what a collector holds.**  After any operations it is the ledger of
the constants taken in, those taken in before included. -/
theorem keeps_steps {decls : List ConstDecl} (hkeeps : c.Keeps (ledger decls))
    (steps : List Step) :
    (c.steps steps).Keeps (ledger (decls ++ steps.filterMap Step.constant?)) := by
  induction steps generalizing c decls with
  | nil => simpa [Collector.steps] using hkeeps
  | cons step rest ih =>
      have hstep := keeps_step hkeeps step
      cases hconstant : step.constant? with
      | none =>
          rw [hconstant, Option.bind_none, Option.toList_none, List.append_nil] at hstep
          rw [List.filterMap_cons_none hconstant]
          exact ih hstep
      | some decl =>
          -- The next number is the length of the ledger so far and one more.
          have hledger : ledger decls ++ (decl.recorded? (c.lastSeq + 1)).toList =
              ledger (decls ++ [decl]) := by
            rw [ledger, ledger, ledgerFrom_concat, Nat.zero_add, ← hkeeps.length_eq]
            rfl
          rw [hconstant, Option.bind_some, hledger] at hstep
          rw [List.filterMap_cons_some hconstant, List.append_cons]
          exact ih hstep

/-- A collector starts with the imports of its file and nothing else. -/
theorem start_eq_ok_iff {name : String} {imports : List ImportDecl} :
    start name imports = .ok c ↔
      ∃ declared, ImportTable.ofDecls imports = .ok declared ∧
        c = { file := { name, imports := declared } } := by
  unfold start
  cases ImportTable.ofDecls imports with
  | error fault => simp
  | ok declared => simp [eq_comm]

theorem keeps_start {name : String} {imports : List ImportDecl}
    (hstart : start name imports = .ok c) : c.Keeps (ledger []) := by
  obtain ⟨declared, -, rfl⟩ := start_eq_ok_iff.mp hstart
  refine ⟨rfl, ?_, rfl, rfl⟩
  intro name known hknown
  cases hknown

end Collector

end GoAtlas
