import Mathlib
import GoAtlas.Proofs.Collect.Ledger

/-!
# The books of a collector balance

From any import list and after any operations, failing ones included, the constants
that a collector has recorded are each in exactly one place: with the alias they name, or
pending if it has not been declared.  Everywhere they stand in the order of their
numbers, and beside each stands the declaration it was read from.  `Collector.Balanced`
says this in terms of the collector alone.

It all comes from the ledger: the numbers in the ledger are `1 … lastSeq` in order, the
places hold sublists of it, and every record names one alias.  Closing the collection
sorts candidates that are in order, so it changes nothing.
-/

namespace GoAtlas.Collector

/-- One of the operations on `c` takes in the constant `decl` and records `value` for
it, under the number that follows the last one. -/
def Produces (c : Collector) (steps : List Step) (decl : ConstDecl) (value : AliasValue) : Prop :=
  ∃ earlier step later, steps = earlier ++ step :: later ∧ step.constant? = some decl ∧
    decl.recorded? ((c.steps earlier).lastSeq + 1) = some ⟨value, decl⟩

/-- The constants recorded in operations on `initial`, as the collector `c` holds them. -/
structure Balanced (initial : Collector) (steps : List Step) (c : Collector) : Prop where
  /-- The numbers of the values pending and of all candidates are the numbers up to the
  last, each once. -/
  numbers : (c.file.pending.map AliasValue.seq ++ c.file.aliases.values.flatMap fun known =>
    known.candidates.map AliasValue.seq).Perm (List.range' 1 c.lastSeq)
  pending_increasing : (c.file.pending.map AliasValue.seq).Pairwise (· < ·)
  candidates_increasing : ∀ known ∈ c.file.aliases.values,
    (known.candidates.map AliasValue.seq).Pairwise (· < ·)
  candidates_named : ∀ name known, c.file.aliases.get? name = some known →
    ∀ value ∈ known.candidates, value.typeName = name
  pending_unclaimed : ∀ value ∈ c.file.pending, c.file.aliases.contains value.typeName = false
  sources_length : ∀ known ∈ c.file.aliases.values,
    known.sources.length = known.candidates.length
  /-- The source beside a candidate is the declaration that produced it. -/
  sources_produce : ∀ known ∈ c.file.aliases.values,
    ∀ pair ∈ known.candidates.zip known.sources, Produces initial steps pair.2 pair.1
  /-- The numbers under which declarations wait are those of the values pending. -/
  waiting_numbers : c.waiting.map Prod.fst = c.file.pending.map AliasValue.seq
  /-- A declaration waits under the number of the value that it produced. -/
  waiting_produce : ∀ pair ∈ c.file.pending.zip (c.waiting.map Prod.snd),
    Produces initial steps pair.2 pair.1

variable {c initial : Collector} {records : List Recorded}

/-! ## Every record is in one place -/

/-- Records are divided among the names given and the rest. -/
theorem perm_recordsOf (names : List String) (hnodup : names.Nodup) (records : List Recorded) :
    ((records.filter fun record => !names.contains record.value.typeName) ++
      names.flatMap fun name => recordsOf name records).Perm records := by
  induction names with
  | nil => simp
  | cons name rest ih =>
      rw [List.nodup_cons] at hnodup
      -- The records of `name` are split off from those that `rest` leaves over.
      obtain ⟨others, hothers⟩ : ∃ others, others =
          records.filter fun record => !rest.contains record.value.typeName := ⟨_, rfl⟩
      have hnamed : others.filter (fun record => record.value.typeName == name) =
          recordsOf name records := by
        rw [hothers, recordsOf, List.filter_filter]
        refine List.filter_congr fun record _ => ?_
        by_cases heq : record.value.typeName = name
        · simp [heq, hnodup.1]
        · simp [heq]
      have hunnamed : others.filter (fun record => !(record.value.typeName == name)) =
          records.filter fun record => !(name :: rest).contains record.value.typeName := by
        rw [hothers, List.filter_filter]
        refine List.filter_congr fun record _ => ?_
        by_cases heq : record.value.typeName = name <;> simp [heq]
      have hsplit : (recordsOf name records ++
          records.filter fun record => !(name :: rest).contains record.value.typeName).Perm
            others := by
        rw [← hnamed, ← hunnamed]
        exact List.filter_append_perm _ others
      rw [List.flatMap_cons, ← List.append_assoc]
      refine (List.Perm.append_right _ (List.perm_append_comm.trans hsplit)).trans ?_
      rw [hothers]
      exact ih hnodup.2

theorem unclaimed_eq_filter (aliases : Table Alias) (records : List Recorded) :
    unclaimed aliases records =
      records.filter fun record => !aliases.keys.contains record.value.typeName := by
  refine List.filter_congr fun record _ => ?_
  rw [Bool.eq_iff_iff]
  simp [Table.mem_keys]

theorem Keeps.flatMap_candidates (hkeeps : c.Keeps records) :
    (c.file.aliases.values.flatMap fun known => known.candidates.map AliasValue.seq) =
      (c.file.aliases.keys.flatMap fun name => recordsOf name records).map (·.value.seq) := by
  rw [Table.values, Table.keys, List.flatMap_map, List.flatMap_map, List.map_flatMap]
  refine List.flatMap_congr fun entry hentry => ?_
  rw [(hkeeps.aliases entry.1 entry.2 (Table.mem_entries.mp hentry)).candidates, List.map_map]
  rfl

theorem Keeps.numbers (hkeeps : c.Keeps records) :
    (c.file.pending.map AliasValue.seq ++ c.file.aliases.values.flatMap fun known =>
      known.candidates.map AliasValue.seq).Perm (List.range' 1 c.lastSeq) := by
  rw [hkeeps.flatMap_candidates, hkeeps.pending, unclaimed_eq_filter, List.map_map,
    ← hkeeps.numbered]
  have hperm := (perm_recordsOf c.file.aliases.keys c.file.aliases.keys_nodup records).map
    (·.value.seq)
  rw [List.map_append] at hperm
  exact hperm

/-! ## Order -/

/-- Any selection of records is in the order of the numbers. -/
theorem Keeps.increasing (hkeeps : c.Keeps records) {part : List Recorded}
    (hpart : part.Sublist records) :
    ((part.map Recorded.value).map AliasValue.seq).Pairwise (· < ·) := by
  have hsorted : (records.map (·.value.seq)).Pairwise (· < ·) := by
    rw [hkeeps.numbered]
    exact List.pairwise_lt_range'
  rw [List.map_map]
  exact hsorted.sublist (hpart.map _)

theorem Keeps.candidates_increasing (hkeeps : c.Keeps records) {known : Alias}
    (hknown : known ∈ c.file.aliases.values) :
    (known.candidates.map AliasValue.seq).Pairwise (· < ·) := by
  obtain ⟨name, hget⟩ := Table.mem_values.mp hknown
  rw [(hkeeps.aliases name known hget).candidates]
  exact hkeeps.increasing List.filter_sublist

/-- Closing the collection changes nothing, because candidates are in order. -/
theorem Keeps.finish_file (hkeeps : c.Keeps records) : c.finish.file = c.file := by
  have haliases : (c.file.aliases.map fun known =>
      { known with candidates := known.candidates.mergeSort fun a b => a.seq ≤ b.seq }) =
        c.file.aliases := by
    refine Table.ext_get? fun name => ?_
    rw [Table.get?_map]
    cases hget : c.file.aliases.get? name with
    | none => rfl
    | some known =>
        have hsorted := hkeeps.candidates_increasing (Table.mem_values_of_get? hget)
        rw [List.pairwise_map] at hsorted
        -- A sort leaves a sorted list alone.
        have hsame : (known.candidates.mergeSort fun a b => a.seq ≤ b.seq) =
            known.candidates :=
          List.mergeSort_of_pairwise (hsorted.imp fun hlt => by simpa using Nat.le_of_lt hlt)
        rw [Option.map_some, hsame]
  unfold finish
  rw [haliases]

/-! ## Sources -/

/-- What is in the ledger of the constants taken in was produced by one of them. -/
theorem produces_of_mem_ledger (hinitial : initial.Keeps (ledger [])) (steps : List Step) :
    ∀ record ∈ ledger (steps.filterMap Step.constant?),
      Produces initial steps record.decl record.value := by
  -- Induction on the last operation, because a number counts the records before it.
  induction steps using List.reverseRecOn with
  | nil =>
      intro record hrecord
      cases hrecord
  | append_singleton earlier step ih =>
      have hearlier : ∀ record ∈ ledger (earlier.filterMap Step.constant?),
          Produces initial (earlier ++ [step]) record.decl record.value := by
        intro record hrecord
        obtain ⟨before, found, later, rfl, hfound⟩ := ih record hrecord
        exact ⟨before, found, later ++ [step], by simp, hfound⟩
      intro record hrecord
      rw [List.filterMap_append] at hrecord
      cases hconstant : step.constant? with
      | none =>
          rw [List.filterMap_cons_none hconstant, List.filterMap_nil, List.append_nil] at hrecord
          exact hearlier record hrecord
      | some decl =>
          have hlast := (keeps_steps hinitial earlier).length_eq
          rw [List.nil_append] at hlast
          rw [List.filterMap_cons_some hconstant, List.filterMap_nil, ledger, ledgerFrom_concat,
            Nat.zero_add, ← ledger, hlast, List.mem_append] at hrecord
          rcases hrecord with hrecord | hrecord
          · exact hearlier record hrecord
          · rw [Option.mem_toList] at hrecord
            have hdecl : record.decl = decl := by
              unfold ConstDecl.recorded? at hrecord
              split at hrecord
              · cases hrecord
                rfl
              · cases hrecord
            rw [hdecl]
            exact ⟨earlier, step, [], rfl, hconstant, hdecl ▸ hrecord⟩

theorem mem_of_mem_zip {part : List Recorded} {pair : AliasValue × ConstDecl}
    (hpair : pair ∈ (part.map Recorded.value).zip (part.map Recorded.decl)) :
    ⟨pair.1, pair.2⟩ ∈ part := by
  rw [List.zip_map'] at hpair
  obtain ⟨record, hrecord, rfl⟩ := List.mem_map.mp hpair
  exact hrecord

/-- **The books of a collector balance**, whatever operations have been made on it and
whether they have succeeded or not, and closing the collection leaves the model of the
file as it is. -/
theorem balanced_steps {name : String} {imports : List ImportDecl}
    (hstart : start name imports = .ok initial) (steps : List Step) :
    Balanced initial steps (initial.steps steps) ∧
      (initial.steps steps).finish.file = (initial.steps steps).file := by
  have hinitial := keeps_start hstart
  have hkeeps := keeps_steps hinitial steps
  rw [List.nil_append] at hkeeps
  have hproduces := produces_of_mem_ledger hinitial steps
  refine ⟨⟨hkeeps.numbers, ?_, fun known => hkeeps.candidates_increasing, ?_, ?_, ?_, ?_, ?_, ?_⟩,
    hkeeps.finish_file⟩
  · rw [hkeeps.pending]
    exact hkeeps.increasing List.filter_sublist
  · intro name known hknown value hvalue
    rw [(hkeeps.aliases name known hknown).candidates] at hvalue
    obtain ⟨record, hrecord, rfl⟩ := List.mem_map.mp hvalue
    simpa using (List.mem_filter.mp hrecord).2
  · intro value hvalue
    rw [hkeeps.pending] at hvalue
    obtain ⟨record, hrecord, rfl⟩ := List.mem_map.mp hvalue
    simpa using (List.mem_filter.mp hrecord).2
  · intro known hknown
    obtain ⟨name, hget⟩ := Table.mem_values.mp hknown
    have halias := hkeeps.aliases name known hget
    rw [halias.candidates, halias.sources, List.length_map, List.length_map]
  · intro known hknown pair hpair
    obtain ⟨name, hget⟩ := Table.mem_values.mp hknown
    have halias := hkeeps.aliases name known hget
    rw [halias.candidates, halias.sources] at hpair
    exact hproduces _ (List.mem_of_mem_filter (mem_of_mem_zip hpair))
  · rw [hkeeps.waiting, hkeeps.pending, List.map_map, List.map_map]
    rfl
  · intro pair hpair
    rw [hkeeps.waiting, hkeeps.pending, List.map_map] at hpair
    exact hproduces _ (List.mem_of_mem_filter (mem_of_mem_zip hpair))

def typedConstant (name typeName literal : String) : ConstDecl :=
  ⟨name, some (.ident typeName), [.literal literal]⟩

/-- Constants before and after their alias, which is declared in vain, declared, and
declared again. -/
def migration : List Step :=
  [.value (typedConstant "A" "Other" "1"), .value (typedConstant "Red" "Color" "2"),
    .alias ⟨"Color", .unsupported "generic_type"⟩, .alias ⟨"Color", .ident "string"⟩,
    .add (.const (typedConstant "Blue" "Color" "3")), .alias ⟨"Color", .ident "int"⟩]

theorem balanced_steps_migration :
    start "a.go" [] = .ok { file := { name := "a.go" } } ∧
      (Collector.steps { file := { name := "a.go" } } migration).lastSeq = 3 ∧
      (Collector.steps { file := { name := "a.go" } } migration).file.pending =
        [⟨"Other", "A", "1", 1⟩] ∧
      Balanced { file := { name := "a.go" } } migration
        (Collector.steps { file := { name := "a.go" } } migration) := by
  have hstart : start "a.go" [] = .ok { file := { name := "a.go" } } := rfl
  exact ⟨hstart, by cbv, by cbv, (balanced_steps hstart migration).1⟩

end GoAtlas.Collector
