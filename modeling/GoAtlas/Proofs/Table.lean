import GoAtlas.Table

/-!
# The view of a table determines it

`Table.get?` is the view of a table.  This file ties the other ways of reading a
table to it: an entry is listed exactly if the view shows it (`mem_entries`), and
two tables with the same view are equal (`ext_get?`).  Statements about tables
can then be made, and proved, through `get?` alone.  One of them is that a table is
made up of its entries (`ofList_entries`).
-/

namespace GoAtlas.Table

universe u v w

variable {α : Type u} {β : Type v} {table : Table α} {key k : String} {value : α}

/-! ## Listed and shown -/

theorem lookup_mem {entries : List (String × α)} (hlookup : lookup key entries = some value) :
    (key, value) ∈ entries := by
  induction entries with
  | nil => simp [lookup] at hlookup
  | cons entry rest ih =>
      obtain ⟨k, v⟩ := entry
      simp only [lookup] at hlookup
      split at hlookup
      · rename_i heq
        cases hlookup
        rw [heq]
        exact List.mem_cons_self ..
      · exact List.mem_cons_of_mem _ (ih hlookup)

theorem lookup_of_mem {entries : List (String × α)}
    (hordered : (entries.map Prod.fst).Pairwise (· < ·)) (hmem : (key, value) ∈ entries) :
    lookup key entries = some value := by
  induction entries with
  | nil => cases hmem
  | cons entry rest ih =>
      obtain ⟨k, v⟩ := entry
      rw [List.map_cons, List.pairwise_cons] at hordered
      rcases List.mem_cons.mp hmem with heq | hmem
      · cases heq
        simp [lookup]
      · have hlt : k < key := hordered.1 key (List.mem_map.mpr ⟨_, hmem, rfl⟩)
        have hne : key ≠ k := by
          rintro rfl
          exact String.lt_irrefl _ hlt
        simp only [lookup, if_neg hne]
        exact ih hordered.2 hmem

/-- The entries of a table are what its view shows. -/
theorem mem_entries : (key, value) ∈ table.entries ↔ table.get? key = some value :=
  ⟨lookup_of_mem table.ordered, lookup_mem⟩

theorem contains_iff : table.contains key = true ↔ ∃ value, table.get? key = some value :=
  Option.isSome_iff_exists

theorem contains_of_get? (hget : table.get? key = some value) : table.contains key = true :=
  contains_iff.mpr ⟨value, hget⟩

theorem contains_eq_false_iff : table.contains key = false ↔ table.get? key = none := by
  simp [contains]

theorem mem_keys : key ∈ table.keys ↔ table.contains key = true := by
  rw [contains_iff, keys, List.mem_map]
  constructor
  · rintro ⟨⟨k, value⟩, hmem, rfl⟩
    exact ⟨value, mem_entries.mp hmem⟩
  · rintro ⟨value, hget⟩
    exact ⟨(key, value), mem_entries.mpr hget, rfl⟩

theorem mem_values : value ∈ table.values ↔ ∃ key, table.get? key = some value := by
  rw [values, List.mem_map]
  constructor
  · rintro ⟨⟨k, value⟩, hmem, rfl⟩
    exact ⟨k, mem_entries.mp hmem⟩
  · rintro ⟨key, hget⟩
    exact ⟨(key, value), mem_entries.mpr hget, rfl⟩

theorem mem_values_of_get? (hget : table.get? key = some value) : value ∈ table.values :=
  mem_values.mpr ⟨key, hget⟩

/-- The values after an insertion are the new one and values from before. -/
theorem mem_values_insert {new : α} (hmem : value ∈ (table.insert key new).values) :
    value = new ∨ value ∈ table.values := by
  obtain ⟨k, hget⟩ := mem_values.mp hmem
  rw [get?_insert] at hget
  split at hget
  · exact Or.inl (Option.some.inj hget).symm
  · exact Or.inr (mem_values_of_get? hget)

theorem keys_nodup (table : Table α) : table.keys.Nodup := by
  refine table.ordered.imp ?_
  rintro a _ hlt rfl
  exact String.lt_irrefl a hlt

@[simp] theorem contains_empty : (empty : Table α).contains key = false := rfl

@[simp] theorem contains_insert :
    (table.insert key value).contains k = (decide (k = key) || table.contains k) := by
  unfold contains
  rw [get?_insert]
  by_cases hkey : k = key <;> simp [hkey]

/-! ## Extensionality -/

/-- Two tables with the same view are equal. -/
theorem ext_get? {a b : Table α} (hview : ∀ key, a.get? key = b.get? key) : a = b := by
  have hmem : ∀ entry, entry ∈ a.entries ↔ entry ∈ b.entries := by
    rintro ⟨key, value⟩
    rw [mem_entries, mem_entries, hview]
  have hsorted : ∀ table : Table α, table.entries.Pairwise fun x y => x.1 < y.1 :=
    fun table => List.pairwise_map.mp table.ordered
  have hnodup : ∀ table : Table α, table.entries.Nodup := by
    intro table
    refine (hsorted table).imp ?_
    rintro x _ hlt rfl
    exact String.lt_irrefl _ hlt
  -- Both lists of entries are strictly increasing, so they cannot differ in order.
  have hperm : a.entries.Perm b.entries :=
    (List.perm_ext_iff_of_nodup (hnodup a) (hnodup b)).mpr hmem
  have hentries : a.entries = b.entries := by
    refine hperm.eq_of_pairwise ?_ (hsorted a) (hsorted b)
    intro x y _ _ hxy hyx
    exact absurd (String.lt_trans hxy hyx) (String.lt_irrefl _)
  cases a
  cases b
  cases hentries
  rfl

/-! ## Tables from their entries -/

theorem insertEntry_nil : insertEntry key value [] = [(key, value)] := by rw [insertEntry]

theorem insertEntry_lt {rest : List (String × α)} {other : α} (hlt : key < k) :
    insertEntry key value ((k, other) :: rest) = (key, value) :: (k, other) :: rest := by
  rw [insertEntry, if_pos hlt]

theorem insertEntry_gt {rest : List (String × α)} {other : α} (hlt : k < key) :
    insertEntry key value ((k, other) :: rest) = (k, other) :: insertEntry key value rest := by
  have hnot : ¬ key < k := fun hless => String.lt_irrefl _ (String.lt_trans hlt hless)
  have hne : key ≠ k := by
    rintro rfl
    exact String.lt_irrefl _ hlt
  rw [insertEntry, if_neg hnot, if_neg hne]

variable {entries : List (String × α)}

theorem lookup_eq_none (habsent : key ∉ entries.map Prod.fst) : lookup key entries = none := by
  cases hlookup : lookup key entries with
  | none => rfl
  | some value => exact absurd (List.mem_map.mpr ⟨_, lookup_mem hlookup, rfl⟩) habsent

/-- Inserting entries with different keys one after another. -/
theorem get?_foldl_insert (hnodup : (entries.map Prod.fst).Nodup) (table : Table α) :
    (entries.foldl (fun table entry => table.insert entry.1 entry.2) table).get? k =
      (lookup k entries).or (table.get? k) := by
  induction entries generalizing table with
  | nil => rfl
  | cons entry rest ih =>
      obtain ⟨key, value⟩ := entry
      rw [List.map_cons, List.nodup_cons] at hnodup
      rw [List.foldl_cons, ih hnodup.2, get?_insert, lookup]
      by_cases hkey : k = key
      · have hnone : lookup k rest = none := lookup_eq_none (hkey ▸ hnodup.1)
        simp [hkey ▸ hnone, hkey]
      · simp [hkey]

theorem ofList_entries (table : Table α) : ofList table.entries = table := by
  refine ext_get? fun key => ?_
  have hfold := get?_foldl_insert (k := key) table.keys_nodup empty
  rw [get?_empty, Option.or_none] at hfold
  exact hfold

theorem mem_foldl_insert {table : Table α}
    (hmem : (key, value) ∈
      (entries.foldl (fun table entry => table.insert entry.1 entry.2) table).entries) :
    (key, value) ∈ entries ∨ (key, value) ∈ table.entries := by
  induction entries generalizing table with
  | nil => exact Or.inr hmem
  | cons entry rest ih =>
      obtain ⟨k, v⟩ := entry
      rcases ih hmem with hrest | hinsert
      · exact Or.inl (List.mem_cons_of_mem _ hrest)
      · rw [mem_entries, get?_insert] at hinsert
        split at hinsert
        · rename_i heq
          cases hinsert
          rw [heq]
          exact Or.inl (List.mem_cons_self ..)
        · exact Or.inr (mem_entries.mpr hinsert)

theorem mem_of_mem_ofList (hmem : (key, value) ∈ (ofList entries).entries) :
    (key, value) ∈ entries :=
  (mem_foldl_insert hmem).resolve_right List.not_mem_nil

theorem map_eq_self {table : Table α} {f : α → α}
    (hfixed : ∀ entry ∈ table.entries, f entry.2 = entry.2) : table.map f = table := by
  refine ext_get? fun key => ?_
  rw [get?_map]
  cases hget : table.get? key with
  | none => rfl
  | some value =>
      have hvalue : f value = value := hfixed _ (mem_entries.mpr hget)
      rw [Option.map_some, hvalue]

theorem map_id (table : Table α) : table.map id = table :=
  map_eq_self fun _ _ => rfl

theorem map_map {γ : Type w} (g : β → γ) (f : α → β) (table : Table α) :
    (table.map f).map g = table.map (g ∘ f) :=
  ext_get? fun key => by rw [get?_map, get?_map, get?_map, Option.map_map]

theorem map_insert (f : α → β) (table : Table α) (key : String) (value : α) :
    (table.insert key value).map f = (table.map f).insert key (f value) := by
  refine ext_get? fun k => ?_
  rw [get?_map, get?_insert, get?_insert, get?_map]
  split <;> rfl

end GoAtlas.Table
