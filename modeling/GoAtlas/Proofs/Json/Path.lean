import GoAtlas.Json.Path

/-!
# Reading and setting at a dot path

A dot path is a place in a value: what is set there is read there, and setting it changes nothing
that is read at a place apart from it (`lawfulAt`).  Reading and setting go down through the same
objects, and `setAt_cons_eq_ok_iff` and `getAt?_cons_eq_some_iff` say so for one segment, the last
one included.  Every law is an induction on the segments with one law on the entries of an object
for each step.

A value is set inside the objects that lead to its place, so a failure further down could leave
them changed.  `assignAt` is setting with that possibility left open, and `assignAt_eq` says that
it does not occur.
-/

namespace GoAtlas.Json

variable {json changed value old inner new : Json} {key other : String}
  {rest keys others : List String} {entries : List (String × Json)}

/-! ## Entries of an object -/

theorem entry?_replaceEntry_self (hentry : entry? key entries = some old) :
    entry? key (replaceEntry key value entries) = some value := by
  induction entries with
  | nil => cases hentry
  | cons entry entries ih =>
      obtain ⟨k, v⟩ := entry
      by_cases hkey : key = k
      · simp [replaceEntry, entry?, hkey]
      · unfold entry? at hentry
        rw [if_neg hkey] at hentry
        simp [replaceEntry, entry?, hkey, ih hentry]

theorem entry?_replaceEntry_of_ne (hother : other ≠ key) :
    entry? other (replaceEntry key value entries) = entry? other entries := by
  induction entries with
  | nil => rfl
  | cons entry entries ih =>
      obtain ⟨k, v⟩ := entry
      by_cases hkey : key = k
      · subst hkey
        simp [replaceEntry, entry?, hother]
      · simp [replaceEntry, entry?, hkey, ih]

theorem replaceEntry_eq_self (hentry : entry? key entries = some value) :
    replaceEntry key value entries = entries := by
  induction entries with
  | nil => rfl
  | cons entry entries ih =>
      obtain ⟨k, v⟩ := entry
      by_cases hkey : key = k
      · unfold entry? at hentry
        rw [if_pos hkey, Option.some.injEq] at hentry
        simp [replaceEntry, hkey, hentry]
      · unfold entry? at hentry
        rw [if_neg hkey] at hentry
        simp [replaceEntry, hkey, ih hentry]

theorem replaceEntry_replaceEntry (key : String) (first second : Json)
    (entries : List (String × Json)) :
    replaceEntry key second (replaceEntry key first entries) = replaceEntry key second entries := by
  induction entries with
  | nil => rfl
  | cons entry entries ih =>
      obtain ⟨k, v⟩ := entry
      by_cases hkey : key = k
      · simp [replaceEntry, hkey]
      · simp [replaceEntry, hkey, ih]

/-! ## One segment -/

theorem getAt?_cons_eq_some_iff :
    json.getAt? (key :: rest) = some value ↔
      ∃ entries inner, json = .obj entries ∧ entry? key entries = some inner ∧
        inner.getAt? rest = some value := by
  constructor
  · intro hget
    rw [getAt?] at hget
    cases hentry : json.entryOf? key with
    | none => simp [hentry] at hget
    | some inner =>
        cases json with
        | obj entries => exact ⟨entries, inner, rfl, hentry, by simpa [hentry] using hget⟩
        | _ => cases hentry
  · rintro ⟨entries, inner, rfl, hentry, hget⟩
    simp [getAt?, entryOf?, hentry, hget]

/-- The last segment is treated as those before it: below it the value itself is set. -/
theorem setAt_cons_eq_ok_iff :
    json.setAt value (key :: rest) = .ok changed ↔
      ∃ entries inner new, json = .obj entries ∧ entry? key entries = some inner ∧
        inner.setAt value rest = .ok new ∧ changed = .obj (replaceEntry key new entries) := by
  cases json with
  | obj entries =>
      cases hentry : entry? key entries with
      | none => cases rest <;> simp [setAt, setEntry, entryOf?, hentry]
      | some inner =>
          cases rest with
          | nil => simp [setAt, setEntry, hentry, eq_comm]
          | cons next rest =>
              cases hset : inner.setAt value (next :: rest) with
              | error fault => simp [setAt, entryOf?, hentry, hset]
              | ok new => simp [setAt, entryOf?, hentry, hset, eq_comm]
  | _ => cases rest <;> simp [setAt, setEntry]

/-! ## The laws below some segments -/

/-- A place can be set exactly if there is a value. -/
theorem exists_setAt_iff :
    (∃ changed, json.setAt value keys = .ok changed) ↔ ∃ old, json.getAt? keys = some old := by
  induction keys generalizing json with
  | nil => simp [setAt, getAt?]
  | cons key rest ih =>
      constructor
      · rintro ⟨changed, hset⟩
        obtain ⟨entries, inner, new, rfl, hentry, hnew, -⟩ := setAt_cons_eq_ok_iff.mp hset
        obtain ⟨old, hold⟩ := ih.mp ⟨new, hnew⟩
        exact ⟨old, getAt?_cons_eq_some_iff.mpr ⟨entries, inner, rfl, hentry, hold⟩⟩
      · rintro ⟨old, hget⟩
        obtain ⟨entries, inner, rfl, hentry, hold⟩ := getAt?_cons_eq_some_iff.mp hget
        obtain ⟨new, hnew⟩ := ih.mpr ⟨old, hold⟩
        exact ⟨_, setAt_cons_eq_ok_iff.mpr ⟨entries, inner, new, rfl, hentry, hnew, rfl⟩⟩

theorem getAt?_setAt (hset : json.setAt value keys = .ok changed) :
    changed.getAt? keys = some value := by
  induction keys generalizing json changed with
  | nil =>
      cases hset
      rfl
  | cons key rest ih =>
      obtain ⟨entries, inner, new, rfl, hentry, hnew, rfl⟩ := setAt_cons_eq_ok_iff.mp hset
      exact getAt?_cons_eq_some_iff.mpr
        ⟨_, new, rfl, entry?_replaceEntry_self hentry, ih hnew⟩

/-- Two places of which neither lies inside the other. -/
def Apart (keys others : List String) : Prop := ¬ keys <+: others ∧ ¬ others <+: keys

instance : Decidable (Apart keys others) := inferInstanceAs (Decidable (_ ∧ _))

/-- Setting a place changes nothing that is read apart from it. -/
theorem getAt?_setAt_apart (hset : json.setAt value keys = .ok changed)
    (hapart : Apart keys others) : changed.getAt? others = json.getAt? others := by
  induction keys generalizing json changed others with
  | nil => exact absurd List.nil_prefix hapart.1
  | cons key rest ih =>
      cases others with
      | nil => exact absurd List.nil_prefix hapart.2
      | cons other others =>
          obtain ⟨entries, inner, new, rfl, hentry, hnew, rfl⟩ := setAt_cons_eq_ok_iff.mp hset
          by_cases hother : other = key
          · -- The two paths part further down, inside the entry that is replaced.
            subst hother
            simp only [Apart, List.cons_prefix_cons, true_and] at hapart
            simp [getAt?, entryOf?, hentry, entry?_replaceEntry_self hentry, ih hnew hapart]
          · simp [getAt?, entryOf?, entry?_replaceEntry_of_ne hother]

theorem setAt_of_getAt? (hget : json.getAt? keys = some value) :
    json.setAt value keys = .ok json := by
  induction keys generalizing json with
  | nil =>
      cases hget
      rfl
  | cons key rest ih =>
      obtain ⟨entries, inner, rfl, hentry, hinner⟩ := getAt?_cons_eq_some_iff.mp hget
      refine setAt_cons_eq_ok_iff.mpr ⟨entries, inner, inner, rfl, hentry, ih hinner, ?_⟩
      rw [replaceEntry_eq_self hentry]

/-- Of two values set in one place the second one stays. -/
theorem setAt_setAt {first second : Json} (hset : json.setAt first keys = .ok changed) :
    changed.setAt second keys = json.setAt second keys := by
  induction keys generalizing json changed with
  | nil => rfl
  | cons key rest ih =>
      obtain ⟨entries, inner, new, rfl, hentry, hnew, rfl⟩ := setAt_cons_eq_ok_iff.mp hset
      obtain ⟨last, hlast⟩ : ∃ last, (obj entries).setAt second (key :: rest) = .ok last :=
        exists_setAt_iff.mpr (exists_setAt_iff.mp ⟨_, hset⟩)
      rw [hlast]
      obtain ⟨_, _, newer, ⟨⟩, hentry', hnewer, rfl⟩ := setAt_cons_eq_ok_iff.mp hlast
      obtain rfl := Option.some.inj (hentry.symm.trans hentry')
      refine setAt_cons_eq_ok_iff.mpr ⟨_, new, newer, rfl, entry?_replaceEntry_self hentry, ?_, ?_⟩
      · rw [ih hnew, hnewer]
      · rw [replaceEntry_replaceEntry]

/-! ## Setting in place -/

/-- What an attempt to set a value below some segments leaves behind, and how it ends.  The
attempt works inside the entries that it goes through, and each of them stays as it is left. -/
def assignAt (value : Json) : List String → Json → Json × Except PathFault Unit
  | [], _ => (value, .ok ())
  | [key], json =>
      match json with
      | .obj entries =>
          if entry? key entries |>.isSome then
            (.obj (replaceEntry key value entries), .ok ())
          else (json, .error (.unknownKey key))
      | _ => (json, .error .notObject)
  | key :: rest, json =>
      match json with
      | .obj entries =>
          match entry? key entries with
          | some inner =>
              let (left, ending) := assignAt value rest inner
              (.obj (replaceEntry key left entries), ending)
          | none => (json, .error (.unknownSection key))
      | _ => (json, .error (.unknownSection key))

/-- An attempt that fails leaves everything as it was. -/
theorem assignAt_eq (value json : Json) (keys : List String) :
    assignAt value keys json =
      match json.setAt value keys with
      | .ok changed => (changed, .ok ())
      | .error fault => (json, .error fault) := by
  induction keys generalizing json with
  | nil => rfl
  | cons key rest ih =>
      cases json with
      | obj entries =>
          cases hentry : entry? key entries with
          | none => cases rest <;> simp [assignAt, setAt, setEntry, entryOf?, hentry]
          | some inner =>
              cases rest with
              | nil => simp [assignAt, setAt, setEntry, hentry]
              | cons next rest =>
                  have hinner := ih inner
                  cases hset : inner.setAt value (next :: rest) with
                  | ok new =>
                      rw [hset] at hinner
                      simp [assignAt, setAt, entryOf?, hentry, hset, hinner]
                  | error fault =>
                      rw [hset] at hinner
                      simp [assignAt, setAt, entryOf?, hentry, hset, hinner,
                        replaceEntry_eq_self hentry]
      | _ => cases rest <;> simp [assignAt, setAt, setEntry]

/-! ## The laws at a dot path -/

/-- What an attempt to set a value at a dot path leaves behind, and how it ends. -/
def assign (json : Json) (path : String) (value : Json) : Json × Except PathFault Unit :=
  assignAt value (segments path) json

/-- The laws of the place in a value that a dot path names. -/
structure LawfulAt (json : Json) (path : String) : Prop where
  /-- It can be set exactly if there is a value. -/
  settable : ∀ value,
    (∃ changed, json.set path value = .ok changed) ↔ ∃ old, json.get? path = some old
  /-- A failure leaves everything as it was. -/
  unchanged : ∀ value fault, json.set path value = .error fault →
    json.assign path value = (json, .error fault)
  /-- A success leaves the value that has been made. -/
  changed : ∀ value changed, json.set path value = .ok changed →
    json.assign path value = (changed, .ok ())
  /-- What has been set is read. -/
  read : ∀ value changed, json.set path value = .ok changed → changed.get? path = some value
  /-- Apart from it everything is read as before. -/
  apart : ∀ value changed other, json.set path value = .ok changed →
    Apart (segments path) (segments other) → changed.get? other = json.get? other
  /-- Setting it to what it is changes nothing. -/
  again : ∀ value, json.get? path = some value → json.set path value = .ok json
  /-- What is set later counts. -/
  later : ∀ first second changed, json.set path first = .ok changed →
    changed.set path second = json.set path second

/-- Every dot path names a lawful place in every value. -/
theorem lawfulAt (json : Json) (path : String) : json.LawfulAt path where
  settable _ := exists_setAt_iff
  unchanged value fault hset := by
    rw [set] at hset
    rw [assign, assignAt_eq, hset]
  changed value changed hset := by
    rw [set] at hset
    rw [assign, assignAt_eq, hset]
  read _ _ hset := getAt?_setAt hset
  apart _ _ _ hset hapart := getAt?_setAt_apart hset hapart
  again _ hget := setAt_of_getAt? hget
  later _ _ _ hset := setAt_setAt hset

end GoAtlas.Json
