/-!
# Tables keyed by text

Everything the atlas records under a name (modules, files, structs, fields, tags,
imports) is kept in a `Table`: a list of entries in strictly increasing order of
their keys, where texts are ordered by code points.  The order is part of the
type, so two tables with the same entries are equal, and reading a table out in
order needs no sorting.

The view of a table is `get?`.  Each operation comes with the equation that says
what it does to the view.
-/

namespace GoAtlas

universe u v

/-- Finitely many entries in increasing order of their keys. -/
structure Table (α : Type u) where
  /-- The entries from the least key to the greatest. -/
  entries : List (String × α)
  /-- Keys are strictly increasing. -/
  ordered : (entries.map Prod.fst).Pairwise (· < ·) := by simp
deriving DecidableEq, Repr

namespace Table

variable {α : Type u} {β : Type v}

/-- The table with no entries. -/
def empty : Table α where
  entries := []

instance : Inhabited (Table α) := ⟨empty⟩

instance : EmptyCollection (Table α) := ⟨empty⟩

/-- The value under `key` in a list of entries. -/
def lookup (key : String) : List (String × α) → Option α
  | [] => none
  | (k, value) :: rest => if key = k then some value else lookup key rest

/-- The value under `key`. -/
def get? (table : Table α) (key : String) : Option α :=
  lookup key table.entries

/-- Whether there is an entry under `key`. -/
def contains (table : Table α) (key : String) : Bool :=
  (table.get? key).isSome

/-- The keys in increasing order. -/
def keys (table : Table α) : List String :=
  table.entries.map Prod.fst

/-- The values in increasing order of their keys. -/
def values (table : Table α) : List α :=
  table.entries.map Prod.snd

/-- The number of entries. -/
def size (table : Table α) : Nat :=
  table.entries.length

/-- Whether there is no entry. -/
def isEmpty (table : Table α) : Bool :=
  table.entries.isEmpty

/-! ## Inserting -/

/-- `entries` with `value` under `key`, in place of what stood there. -/
def insertEntry (key : String) (value : α) : List (String × α) → List (String × α)
  | [] => [(key, value)]
  | (k, v) :: rest =>
      if key < k then (key, value) :: (k, v) :: rest
      else if key = k then (key, value) :: rest
      else (k, v) :: insertEntry key value rest

theorem mem_insertEntry_keys {key k : String} {value : α} {entries : List (String × α)}
    (h : k ∈ (insertEntry key value entries).map Prod.fst) :
    k = key ∨ k ∈ entries.map Prod.fst := by
  induction entries with
  | nil => simpa [insertEntry] using h
  | cons entry rest ih =>
      obtain ⟨k', v'⟩ := entry
      unfold insertEntry at h
      split at h
      · simpa using h
      · split at h
        · rename_i heq
          subst heq
          simpa using h
        · rw [List.map_cons, List.mem_cons] at h
          rcases h with h | h
          · exact Or.inr (by simp [h])
          · rcases ih h with h | h
            · exact Or.inl h
            · exact Or.inr (by simp only [List.map_cons, List.mem_cons]; exact Or.inr h)

theorem insertEntry_ordered (key : String) (value : α) {entries : List (String × α)}
    (h : (entries.map Prod.fst).Pairwise (· < ·)) :
    ((insertEntry key value entries).map Prod.fst).Pairwise (· < ·) := by
  induction entries with
  | nil => simp [insertEntry]
  | cons entry rest ih =>
      obtain ⟨k', v'⟩ := entry
      simp only [List.map_cons, List.pairwise_cons] at h
      unfold insertEntry
      split
      · rename_i hlt
        simp only [List.map_cons, List.pairwise_cons, List.mem_cons]
        refine ⟨?_, h⟩
        rintro k (rfl | hk)
        · exact hlt
        · exact String.lt_trans hlt (h.1 k hk)
      · split
        · rename_i heq
          subst heq
          simpa using h
        · rename_i hge hne
          simp only [List.map_cons, List.pairwise_cons]
          refine ⟨fun k hk => ?_, ih h.2⟩
          rcases mem_insertEntry_keys hk with rfl | hk
          · rcases Std.lt_trichotomy k' k with hlt | heq | hgt
            · exact hlt
            · exact absurd heq.symm hne
            · exact absurd hgt hge
          · exact h.1 k hk

/-- The table with `value` under `key`, in place of what stood there. -/
def insert (table : Table α) (key : String) (value : α) : Table α where
  entries := insertEntry key value table.entries
  ordered := insertEntry_ordered key value table.ordered

/-- The table of a list of entries; of two entries under one key the later one
stays. -/
def ofList (entries : List (String × α)) : Table α :=
  entries.foldl (fun table entry => table.insert entry.1 entry.2) empty

theorem lookup_insertEntry (key k : String) (value : α) (entries : List (String × α)) :
    lookup k (insertEntry key value entries) =
      if k = key then some value else lookup k entries := by
  induction entries with
  | nil => simp [insertEntry, lookup]
  | cons entry rest ih =>
      obtain ⟨k', v'⟩ := entry
      unfold insertEntry
      split
      · simp [lookup]
      · split
        · rename_i heq
          subst heq
          simp only [lookup]
          split <;> rfl
        · rename_i hne
          simp only [lookup, ih]
          split
          · rename_i heq
            subst heq
            simp [Ne.symm hne]
          · rfl

/-- Inserting changes the view at the inserted key only. -/
@[simp] theorem get?_insert (table : Table α) (key k : String) (value : α) :
    (table.insert key value).get? k = if k = key then some value else table.get? k :=
  lookup_insertEntry key k value table.entries

@[simp] theorem get?_empty (k : String) : (empty : Table α).get? k = none := rfl

/-! ## Changing values and selecting entries -/

/-- The table with `f` applied to every value. -/
def map (f : α → β) (table : Table α) : Table β where
  entries := table.entries.map fun entry => (entry.1, f entry.2)
  ordered := by
    have h : (table.entries.map fun entry => (entry.1, f entry.2)).map Prod.fst =
        table.entries.map Prod.fst := by
      rw [List.map_map]
      rfl
    rw [h]
    exact table.ordered

/-- The table with `f` applied to the value under `key`, if there is one. -/
def modify (table : Table α) (key : String) (f : α → α) : Table α where
  entries := table.entries.map fun entry => (entry.1, if entry.1 = key then f entry.2 else entry.2)
  ordered := by
    have h : (table.entries.map fun entry =>
        (entry.1, if entry.1 = key then f entry.2 else entry.2)).map Prod.fst =
        table.entries.map Prod.fst := by
      rw [List.map_map]
      rfl
    rw [h]
    exact table.ordered

/-- The entries whose key and value satisfy `p`. -/
def filter (p : String → α → Bool) (table : Table α) : Table α where
  entries := table.entries.filter fun entry => p entry.1 entry.2
  ordered := table.ordered.sublist (List.filter_sublist.map Prod.fst)

theorem lookup_map_snd (f : String → α → β) (k : String) (entries : List (String × α)) :
    lookup k (entries.map fun entry => (entry.1, f entry.1 entry.2)) =
      (lookup k entries).map (f k) := by
  induction entries with
  | nil => rfl
  | cons entry rest ih =>
      simp only [List.map_cons, lookup]
      split
      · rename_i heq
        subst heq
        rfl
      · exact ih

@[simp] theorem get?_map (f : α → β) (table : Table α) (k : String) :
    (table.map f).get? k = (table.get? k).map f :=
  lookup_map_snd (fun _ => f) k table.entries

/-- Modifying changes the view at the given key only. -/
@[simp] theorem get?_modify (table : Table α) (key k : String) (f : α → α) :
    (table.modify key f).get? k =
      if k = key then (table.get? k).map f else table.get? k := by
  have h := lookup_map_snd (fun key' value => if key' = key then f value else value) k
    table.entries
  refine h.trans ?_
  split
  · rfl
  · exact Option.map_id' ..

end Table

end GoAtlas
