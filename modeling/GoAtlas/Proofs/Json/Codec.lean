import GoAtlas.Json.Record
import GoAtlas.Proofs.Json.Layout
import GoAtlas.Proofs.Table

/-!
# Encoding and decoding

`RoundTrips` says that a decoder undoes an encoder, except for what the encoder leaves out.  It
also says what makes the two usable over texts: encoded values have no numbers, and what is
decoded is encoded again without nesting it deeper.  `RoundTrips.list` and `RoundTrips.table`
carry it over to lists and tables.

A record is written as the fields that are there, each under its name (`present`), and
`namedFields?_present` finds them again.  `RoundTrips.record` reduces the round trip of a record
to that of its fields.
-/

namespace GoAtlas.Json

/-! ## Measures over members -/

variable {json : Json} {items : List Json} {entries : List (String × Json)} {n : Nat}

@[simp] theorem isTextual_str (text : String) : (Json.str text).isTextual = true := rfl

@[simp] theorem isTextual_bool (b : Bool) : (Json.bool b).isTextual = true := rfl

@[simp] theorem nesting_str (text : String) : (Json.str text).nesting = 0 := rfl

theorem isTextual_arr :
    (Json.arr items).isTextual = true ↔ ∀ item ∈ items, item.isTextual = true := by
  rw [isTextual]
  induction items with
  | nil => simp [textualItems]
  | cons item rest ih => simp [textualItems, ih]

theorem isTextual_obj :
    (Json.obj entries).isTextual = true ↔ ∀ entry ∈ entries, entry.2.isTextual = true := by
  rw [isTextual]
  induction entries with
  | nil => simp [textualEntries]
  | cons entry rest ih => simp [textualEntries, ih]

mutual

theorem isPlain_of_isTextual : ∀ {json : Json}, json.isTextual = true → json.isPlain = true
  | .null, _ => rfl
  | .bool _, _ => rfl
  | .str _, _ => rfl
  | .arr items, htextual => by
      rw [isPlain]
      exact plainItems_of_textualItems htextual
  | .obj entries, htextual => by
      rw [isPlain]
      exact plainEntries_of_textualEntries htextual

theorem plainItems_of_textualItems : ∀ {items : List Json},
    textualItems items = true → plainItems items = true
  | [], _ => rfl
  | _ :: _, htextual => by
      rw [textualItems, Bool.and_eq_true] at htextual
      rw [plainItems, isPlain_of_isTextual htextual.1, plainItems_of_textualItems htextual.2]
      rfl

theorem plainEntries_of_textualEntries : ∀ {entries : List (String × Json)},
    textualEntries entries = true → plainEntries entries = true
  | [], _ => rfl
  | (_, _) :: _, htextual => by
      rw [textualEntries, Bool.and_eq_true] at htextual
      rw [plainEntries, isPlain_of_isTextual htextual.1,
        plainEntries_of_textualEntries htextual.2]
      rfl

end

theorem nestingItems_le : nestingItems items ≤ n ↔ ∀ item ∈ items, item.nesting ≤ n := by
  induction items with
  | nil => simp [nestingItems]
  | cons item rest ih => rw [nestingItems, Nat.max_le, ih, List.forall_mem_cons]

theorem nestingEntries_le :
    nestingEntries entries ≤ n ↔ ∀ entry ∈ entries, entry.2.nesting ≤ n := by
  induction entries with
  | nil => simp [nestingEntries]
  | cons entry rest ih => rw [nestingEntries, Nat.max_le, ih, List.forall_mem_cons]

theorem nesting_arr_le :
    (Json.arr items).nesting ≤ n ↔ 0 < n ∧ ∀ item ∈ items, item.nesting < n := by
  cases n with
  | zero => simp [nesting]
  | succ n =>
      rw [nesting, Nat.add_le_add_iff_right, nestingItems_le]
      simp only [Nat.lt_succ_iff, Nat.zero_le, true_and]

theorem nesting_obj_le :
    (Json.obj entries).nesting ≤ n ↔ 0 < n ∧ ∀ entry ∈ entries, entry.2.nesting < n := by
  cases n with
  | zero => simp [nesting]
  | succ n =>
      rw [nesting, Nat.add_le_add_iff_right, nestingEntries_le]
      simp only [Nat.lt_succ_iff, Nat.zero_le, true_and]

theorem nesting_lt_arr {item : Json} (hmem : item ∈ items) :
    item.nesting < (Json.arr items).nesting :=
  (nesting_arr_le.mp (Nat.le_refl _)).2 item hmem

theorem nesting_lt_obj {entry : String × Json} (hmem : entry ∈ entries) :
    entry.2.nesting < (Json.obj entries).nesting :=
  (nesting_obj_le.mp (Nat.le_refl _)).2 entry hmem

/-! ## Decoding one after another -/

section Decoding

variable {α β : Type} {f : α → Option β} {values : List α} {results : List β}

theorem mapM_eq_map {g : α → β} (hf : ∀ value ∈ values, f value = some (g value)) :
    values.mapM f = some (values.map g) := by
  induction values with
  | nil => rfl
  | cons value rest ih =>
      have hvalue := hf value (List.mem_cons_self ..)
      have hrest := ih fun value hmem => hf value (List.mem_cons_of_mem _ hmem)
      rw [List.mapM_cons, hvalue, hrest]
      rfl

theorem exists_of_mem_mapM (hmapM : values.mapM f = some results) {result : β}
    (hmem : result ∈ results) : ∃ value ∈ values, f value = some result := by
  induction values generalizing results with
  | nil =>
      cases hmapM
      cases hmem
  | cons value rest ih =>
      rw [List.mapM_cons] at hmapM
      obtain ⟨first, hfirst, hmapM⟩ := Option.bind_eq_some_iff.mp hmapM
      obtain ⟨more, hmore, heq⟩ := Option.bind_eq_some_iff.mp hmapM
      cases heq
      rcases List.mem_cons.mp hmem with rfl | hmem
      · exact ⟨value, List.mem_cons_self .., hfirst⟩
      · obtain ⟨value, hvalue, hresult⟩ := ih hmore hmem
        exact ⟨value, List.mem_cons_of_mem _ hvalue, hresult⟩

end Decoding

/-! ## Fields of a record -/

section Fields

variable {α : Type} {names : List String} {value : α} {fields : List (Option α)}

theorem onlyEntry?_cons_of_ne {key k : String} (entries : List (String × α)) (hne : k ≠ key) :
    onlyEntry? key ((k, value) :: entries) = onlyEntry? key entries := by
  unfold onlyEntry?
  rw [List.filter_cons, beq_eq_false_iff_ne.mpr hne, if_neg Bool.false_ne_true]

theorem filter_key_eq_nil {key : String} {entries : List (String × α)}
    (habsent : key ∉ entries.map Prod.fst) : entries.filter (·.1 == key) = [] := by
  rw [List.filter_eq_nil_iff]
  intro entry hmem heq
  exact habsent (List.mem_map.mpr ⟨entry, hmem, eq_of_beq heq⟩)

theorem onlyEntry?_cons_self {key : String} {entries : List (String × α)}
    (habsent : key ∉ entries.map Prod.fst) :
    onlyEntry? key ((key, value) :: entries) = some (some value) := by
  unfold onlyEntry?
  rw [List.filter_cons, if_pos (beq_self_eq_true key), filter_key_eq_nil habsent]

theorem namedFields?_cons (name : String) (names : List String) (entries : List (String × α)) :
    namedFields? (name :: names) entries =
      onlyEntry? name entries >>= fun field =>
        (namedFields? names entries).map (field :: ·) := by
  simp only [namedFields?, List.mapM_cons, Option.map_eq_bind]
  rfl

theorem namedFields?_cons_of_not_mem {key : String} (entries : List (String × α))
    (habsent : key ∉ names) :
    namedFields? names ((key, value) :: entries) = namedFields? names entries := by
  induction names with
  | nil => rfl
  | cons name names ih =>
      rw [List.mem_cons, not_or] at habsent
      rw [namedFields?_cons, namedFields?_cons, onlyEntry?_cons_of_ne entries habsent.1,
        ih habsent.2]

/-- The entries of the fields that are there, under their names. -/
def present : List String → List (Option α) → List (String × α)
  | name :: names, some value :: fields => (name, value) :: present names fields
  | _ :: names, none :: fields => present names fields
  | _, _ => []

theorem mem_of_mem_present {entry : String × α} (hmem : entry ∈ present names fields) :
    entry.1 ∈ names ∧ some entry.2 ∈ fields := by
  induction names generalizing fields with
  | nil => simp [present] at hmem
  | cons name names ih =>
      cases fields with
      | nil => simp [present] at hmem
      | cons field fields =>
          cases field with
          | none =>
              obtain ⟨hname, hfield⟩ := ih hmem
              exact ⟨List.mem_cons_of_mem _ hname, List.mem_cons_of_mem _ hfield⟩
          | some value =>
              rcases List.mem_cons.mp hmem with rfl | hmem
              · exact ⟨List.mem_cons_self .., List.mem_cons_self ..⟩
              · obtain ⟨hname, hfield⟩ := ih hmem
                exact ⟨List.mem_cons_of_mem _ hname, List.mem_cons_of_mem _ hfield⟩

theorem not_mem_present_keys {key : String} (fields : List (Option α)) (habsent : key ∉ names) :
    key ∉ (present names fields).map Prod.fst := by
  intro hmem
  obtain ⟨entry, hentry, rfl⟩ := List.mem_map.mp hmem
  exact habsent (mem_of_mem_present hentry).1

/-- Fields are found in the object that lists them. -/
theorem namedFields?_present (hnodup : names.Nodup) (hlength : names.length = fields.length) :
    namedFields? names (present names fields) = some fields := by
  induction names generalizing fields with
  | nil =>
      cases fields with
      | nil => rfl
      | cons field fields => simp at hlength
  | cons name names ih =>
      cases fields with
      | nil => simp at hlength
      | cons field fields =>
          rw [List.nodup_cons] at hnodup
          have hmore := ih hnodup.2 (Nat.succ.inj hlength)
          have habsent := not_mem_present_keys fields hnodup.1
          cases field with
          | none =>
              have hfirst : onlyEntry? name (present names fields) = some none := by
                unfold onlyEntry?
                rw [filter_key_eq_nil habsent]
              rw [present, namedFields?_cons, hfirst, hmore]
              rfl
          | some value =>
              rw [present, namedFields?_cons, onlyEntry?_cons_self habsent,
                namedFields?_cons_of_not_mem _ hnodup.1, hmore]
              rfl

theorem mem_of_onlyEntry? {key : String} {entries : List (String × α)}
    (honly : onlyEntry? key entries = some (some value)) : (key, value) ∈ entries := by
  unfold onlyEntry? at honly
  split at honly
  · cases honly
  · rename_i k v hfilter
    cases honly
    have hmem : (k, value) ∈ entries.filter (·.1 == key) := by simp [hfilter]
    rw [List.mem_filter, beq_iff_eq] at hmem
    exact hmem.2 ▸ hmem.1
  · cases honly

theorem mem_of_namedFields? {entries : List (String × α)}
    (hfields : namedFields? names entries = some fields) (hmem : some value ∈ fields) :
    ∃ key, (key, value) ∈ entries := by
  obtain ⟨key, _, honly⟩ := exists_of_mem_mapM hfields hmem
  exact ⟨key, mem_of_onlyEntry? honly⟩

theorem mem_of_listedFields? {items : List α} (hfields : listedFields? names items = some fields)
    (hmem : some value ∈ fields) : value ∈ items := by
  induction items generalizing names fields with
  | nil =>
      simp only [listedFields?, Option.some.injEq] at hfields
      subst hfields
      simp at hmem
  | cons item rest ih =>
      cases names with
      | nil => simp [listedFields?] at hfields
      | cons name names =>
          obtain ⟨more, hmore, rfl⟩ := Option.map_eq_some_iff.mp hfields
          rcases List.mem_cons.mp hmem with heq | hmem
          · cases heq
            exact List.mem_cons_self ..
          · exact List.mem_cons_of_mem _ (ih hmore hmem)

/-- Whether all fields that are there fit into something nested `n` deep. -/
def Fit (n : Nat) (fields : List (Option Json)) : Prop :=
  ∀ value, some value ∈ fields → value.nesting < n

@[simp] theorem fit_nil : Fit n [] := by simp [Fit]

@[simp] theorem fit_cons_some {value : Json} {fields : List (Option Json)} :
    Fit n (some value :: fields) ↔ value.nesting < n ∧ Fit n fields := by
  simp [Fit]

@[simp] theorem fit_cons_none {fields : List (Option Json)} :
    Fit n (none :: fields) ↔ Fit n fields := by
  simp [Fit]

/-- A record is an array or an object, and its fields are inside of it. -/
theorem fit_of_record? {fields : List (Option Json)} (hrecord : record? names json = some fields) :
    0 < json.nesting ∧ Fit json.nesting fields := by
  cases json with
  | obj entries =>
      refine ⟨Nat.succ_pos _, fun value hmem => ?_⟩
      obtain ⟨key, hentry⟩ := mem_of_namedFields? hrecord hmem
      exact nesting_lt_obj hentry
  | arr items =>
      refine ⟨Nat.succ_pos _, fun value hmem => ?_⟩
      exact nesting_lt_arr (mem_of_listedFields? hrecord hmem)
  | _ => simp [record?] at hrecord

end Fields

/-! ## Round trips -/

/-- Decoding gives back what was encoded, without what `forget` takes away, and nothing else is
taken away from what has been decoded. -/
structure RoundTrips {α : Type} (encode : α → Json) (decode? : Json → Option α)
    (forget : α → α) : Prop where
  textual : ∀ value, (encode value).isTextual = true
  decode_encode : ∀ value, decode? (encode value) = some (forget value)
  of_decode : ∀ {json value}, decode? json = some value →
    (encode value).nesting ≤ json.nesting ∧ forget value = value

namespace RoundTrips

variable {α : Type} {encode : α → Json} {decode? : Json → Option α} {forget : α → α}

theorem text : RoundTrips Json.str text? id where
  textual := fun _ => rfl
  decode_encode := fun _ => rfl
  of_decode := fun _ => ⟨Nat.zero_le _, rfl⟩

theorem bool : RoundTrips Json.bool bool? id where
  textual := fun _ => rfl
  decode_encode := fun _ => rfl
  of_decode := fun _ => ⟨Nat.zero_le _, rfl⟩

theorem list (h : RoundTrips encode decode? forget) :
    RoundTrips (fun values => .arr (values.map encode)) (list? decode?) (List.map forget) where
  textual values := by
    rw [isTextual_arr]
    rintro _ hmem
    obtain ⟨value, _, rfl⟩ := List.mem_map.mp hmem
    exact h.textual value
  decode_encode values := by
    rw [list?, List.mapM_map]
    exact mapM_eq_map fun value _ => h.decode_encode value
  of_decode := by
    intro json values hdecode
    cases json with
    | arr items =>
        -- Each value comes from an item, which bounds its nesting.
        have hfrom : ∀ value ∈ values, ∃ item ∈ items, decode? item = some value :=
          fun value => exists_of_mem_mapM hdecode
        refine ⟨nesting_arr_le.mpr ⟨Nat.succ_pos _, ?_⟩, ?_⟩
        · intro _ hmem
          obtain ⟨value, hvalue, rfl⟩ := List.mem_map.mp hmem
          obtain ⟨item, hitem, hdecode⟩ := hfrom value hvalue
          exact Nat.lt_of_le_of_lt (h.of_decode hdecode).1 (nesting_lt_arr hitem)
        · have hsame : ∀ value ∈ values, forget value = id value := by
            intro value hvalue
            obtain ⟨item, _, hdecode⟩ := hfrom value hvalue
            exact (h.of_decode hdecode).2
          rw [List.map_congr_left hsame, List.map_id]
    | _ => simp [list?] at hdecode

theorem table (h : RoundTrips encode decode? forget) :
    RoundTrips (ofTable encode) (table? decode?) (Table.map forget) where
  textual table := by
    rw [ofTable, isTextual_obj]
    rintro _ hmem
    obtain ⟨⟨key, value⟩, _, rfl⟩ := List.mem_map.mp hmem
    exact h.textual value
  decode_encode table := by
    have hentry : ∀ entry ∈ table.entries, (decode? (encode entry.2)).map (entry.1, ·) =
        some (entry.1, forget entry.2) := by
      intro entry _
      rw [h.decode_encode, Option.map_some]
    calc table? decode? (ofTable encode table)
        = some (Table.ofList (table.map forget).entries) := by
          rw [ofTable, table?, List.mapM_map]
          exact congrArg (Option.map Table.ofList) (mapM_eq_map hentry)
      _ = some (table.map forget) := by rw [Table.ofList_entries]
  of_decode := by
    intro json table hdecode
    cases json with
    | obj entries =>
        obtain ⟨decoded, hdecoded, rfl⟩ := Option.map_eq_some_iff.mp hdecode
        -- Each value comes from an entry, which bounds its nesting.
        have hfrom : ∀ entry ∈ (Table.ofList decoded).entries,
            ∃ source ∈ entries, decode? source.2 = some entry.2 := by
          rintro ⟨key, value⟩ hmem
          obtain ⟨source, hsource, heq⟩ :=
            exists_of_mem_mapM hdecoded (Table.mem_of_mem_ofList hmem)
          obtain ⟨_, hvalue, heq⟩ := Option.map_eq_some_iff.mp heq
          cases heq
          exact ⟨source, hsource, hvalue⟩
        refine ⟨nesting_obj_le.mpr ⟨Nat.succ_pos _, ?_⟩, Table.map_eq_self ?_⟩
        · rintro _ hmem
          obtain ⟨entry, hentry, rfl⟩ := List.mem_map.mp hmem
          obtain ⟨source, hsource, hdecode⟩ := hfrom entry hentry
          exact Nat.lt_of_le_of_lt (h.of_decode hdecode).1 (nesting_lt_obj hsource)
        · intro entry hentry
          obtain ⟨source, _, hdecode⟩ := hfrom entry hentry
          exact (h.of_decode hdecode).2
    | _ => simp [table?] at hdecode

theorem congr {forget' : α → α} (h : RoundTrips encode decode? forget)
    (hforget : ∀ value, forget value = forget' value) : RoundTrips encode decode? forget' := by
  have heq : forget = forget' := funext hforget
  exact heq ▸ h

theorem list_id (h : RoundTrips encode decode? id) :
    RoundTrips (fun values => .arr (values.map encode)) (list? decode?) id :=
  h.list.congr List.map_id

theorem table_id (h : RoundTrips encode decode? id) :
    RoundTrips (ofTable encode) (table? decode?) id :=
  h.table.congr Table.map_id

/-- A record is decoded to what was encoded if this holds of its fields. -/
theorem record (names : List String) (fields : α → List (Option Json))
    {build? : List (Option Json) → Option α} (hnodup : names.Nodup)
    (hlength : ∀ value, names.length = (fields value).length)
    (hencode : ∀ value, encode value = .obj (present names (fields value)))
    (hdecode : ∀ json, decode? json = (record? names json).bind build?)
    (htextual : ∀ value field, some field ∈ fields value → field.isTextual = true)
    (hbuild : ∀ value, build? (fields value) = some (forget value))
    (hbuilt : ∀ {given value n}, build? given = some value → Fit n given →
      Fit n (fields value) ∧ forget value = value) :
    RoundTrips encode decode? forget where
  textual value := by
    rw [hencode, isTextual_obj]
    intro entry hmem
    exact htextual value _ (mem_of_mem_present hmem).2
  decode_encode value := by
    rw [hdecode, hencode, record?, namedFields?_present hnodup (hlength value)]
    exact hbuild value
  of_decode := by
    intro json value hvalue
    rw [hdecode] at hvalue
    obtain ⟨given, hgiven, hvalue⟩ := Option.bind_eq_some_iff.mp hvalue
    obtain ⟨hpos, hfit⟩ := fit_of_record? hgiven
    obtain ⟨hfields, hforget⟩ := hbuilt hvalue hfit
    refine ⟨?_, hforget⟩
    rw [hencode, nesting_obj_le]
    exact ⟨hpos, fun entry hmem => hfields _ (mem_of_mem_present hmem).2⟩

theorem required (h : RoundTrips encode decode? forget) {given : List (Option Json)}
    {field : Option Json} {value : α} {n : Nat} (hvalue : required? decode? field = some value)
    (hgiven : Fit n given) (hmem : field ∈ given) :
    (encode value).nesting < n ∧ forget value = value := by
  obtain ⟨json, rfl, hdecode⟩ := Option.bind_eq_some_iff.mp hvalue
  obtain ⟨hnesting, hforget⟩ := h.of_decode hdecode
  exact ⟨Nat.lt_of_le_of_lt hnesting (hgiven json hmem), hforget⟩

end RoundTrips

end GoAtlas.Json
