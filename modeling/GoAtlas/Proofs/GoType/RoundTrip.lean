import GoAtlas.GoType.Json
import GoAtlas.Proofs.Json.Codec

/-!
# Types read back from JSON

A type is written as its kind and its arguments (`toJson_eq`), and the decoder finds both of
them again (`ofEntries?_args`).  What an argument is decoded to depends on the kind: a string
and a type can stand under the same key.  So every part of a value is decoded in all the ways
there are, and `build?_args` says that the kind of a type picks the ones that give the type.

In the other direction, a type that has been decoded is nested as deep as the value it comes
from, or less (`nesting_of_ofJson?`).
-/

namespace GoAtlas

theorem ChanDir.ofJson?_name (dir : ChanDir) : ChanDir.ofJson? (.str dir.name) = some dir := by
  cases dir <;> rfl

namespace GoType

open Json

/-! ## Kinds and arguments -/

def kind : GoType → Kind
  | .primitive _ => .primitive
  | .array _ => .array
  | .map _ _ => .map
  | .struct _ => .struct
  | .interface _ => .interface
  | .pointer _ => .pointer
  | .selector _ _ => .selector
  | .func _ _ => .func
  | .channel _ _ => .channel
  | .ellipsis _ => .ellipsis

/-- The JSON forms of the arguments of a type. -/
def args : GoType → List Json
  | .primitive name => [.str name]
  | .array elem => [elem.toJson]
  | .map key value => [key.toJson, value.toJson]
  | .struct fields => [.arr (toJsonAll fields)]
  | .interface methods => [.arr (toJsonAll methods)]
  | .pointer target => [target.toJson]
  | .selector package name => [.str package, .str name]
  | .func args results => [.arr (toJsonAll args), .arr (toJsonAll results)]
  | .channel elem dir => [elem.toJson, .str dir.name]
  | .ellipsis elem => [elem.toJson]

theorem length_args (type : GoType) : type.kind.fields.length = type.args.length := by
  cases type <;> rfl

theorem toJson_eq (type : GoType) :
    type.toJson = .obj (("kind", .str type.kind.name) ::
      present type.kind.fields (type.args.map some)) := by
  cases type <;> simp only [toJson] <;> rfl

theorem Kind.fields_nodup (kind : Kind) : kind.fields.Nodup := by
  cases kind <;> decide

theorem Kind.kind_not_mem_fields (kind : Kind) : "kind" ∉ kind.fields := by
  cases kind <;> decide

theorem Kind.ofJson?_name (byNumber : Bool) (kind : Kind) :
    Kind.ofJson? byNumber (.str kind.name) = some kind := by
  cases kind <;> rfl

/-! ## Decoding what is encoded -/

theorem partEntries_present (names : List String) (values : List Json) :
    partEntries (present names (values.map some)) =
      present names ((values.map part).map some) := by
  induction names generalizing values with
  | nil => rfl
  | cons name names ih =>
      cases values with
      | nil => rfl
      | cons value values => simp only [List.map_cons, present, partEntries, ih]

/-- The decoder finds the kind and the arguments. -/
theorem ofEntries?_args (byNumber : Bool) (kind : Kind) {args : List Json}
    (hlength : kind.fields.length = args.length) :
    ofEntries? byNumber (partEntries (("kind", .str kind.name) ::
      present kind.fields (args.map some))) = build? kind ((args.map part).map some) := by
  have habsent := not_mem_present_keys ((args.map part).map some) kind.kind_not_mem_fields
  have hkind : onlyEntry? "kind" (("kind", part (.str kind.name)) ::
      present kind.fields ((args.map part).map some)) = some (some (part (.str kind.name))) :=
    onlyEntry?_cons_self habsent
  -- Without the kind, what is left are the arguments under their names.
  have hrest : (("kind", part (.str kind.name)) ::
      present kind.fields ((args.map part).map some)).filter (·.1 != "kind") =
        present kind.fields ((args.map part).map some) := by
    rw [List.filter_cons_of_neg (by simp), List.filter_eq_self]
    intro entry hmem
    rw [bne_iff_ne]
    intro heq
    exact habsent (List.mem_map.mpr ⟨entry, hmem, heq⟩)
  have hfields : namedFields? kind.fields (present kind.fields ((args.map part).map some)) =
      some ((args.map part).map some) :=
    namedFields?_present kind.fields_nodup (by rw [List.length_map, List.length_map, hlength])
  have hname : Kind.ofJson? byNumber (part (.str kind.name)).json = some kind :=
    kind.ofJson?_name byNumber
  simp only [partEntries, partEntries_present, ofEntries?, hkind, hrest, hname, hfields,
    Option.bind_some]

theorem type?_part_toJson {type : GoType}
    (hbuild : build? type.kind ((type.args.map part).map some) = some type) :
    (part type.toJson).type? = some type := by
  rw [toJson_eq]
  simp only [part]
  rw [ofEntries?_args true type.kind type.length_args]
  exact hbuild

mutual

theorem build?_args : ∀ type : GoType,
    build? type.kind ((type.args.map part).map some) = some type
  | .primitive name => by simp [kind, args, build?, part, text?]
  | .array elem => by
      have helem := type?_part_toJson (build?_args elem)
      simp only [kind, args, build?, List.map_cons, List.map_nil, helem, Option.map_some]
  | .map key value => by
      have hkey := type?_part_toJson (build?_args key)
      have hvalue := type?_part_toJson (build?_args value)
      simp only [kind, args, build?, List.map_cons, List.map_nil, hkey, hvalue, Option.map_some,
        Option.bind_some]
  | .struct fields => by
      have hfields := typesOf?_toJsonAll fields
      simp only [kind, args, build?, List.map_cons, List.map_nil, part, hfields, Option.map_some]
  | .interface methods => by
      have hmethods := typesOf?_toJsonAll methods
      simp only [kind, args, build?, List.map_cons, List.map_nil, part, hmethods, Option.map_some]
  | .pointer target => by
      have htarget := type?_part_toJson (build?_args target)
      simp only [kind, args, build?, List.map_cons, List.map_nil, htarget, Option.map_some]
  | .selector package name => by simp [kind, args, build?, part, text?]
  | .func args results => by
      have hargs := typesOf?_toJsonAll args
      have hresults := typesOf?_toJsonAll results
      simp only [kind, GoType.args, build?, List.map_cons, List.map_nil, part, hargs, hresults,
        Option.map_some, Option.bind_some]
  | .channel elem dir => by
      have helem := type?_part_toJson (build?_args elem)
      have hdir : ChanDir.ofJson? (part (.str dir.name)).json = some dir :=
        ChanDir.ofJson?_name dir
      simp only [kind, args, build?, List.map_cons, List.map_nil, helem, hdir, Option.map_some,
        Option.bind_some]
  | .ellipsis elem => by
      have helem := type?_part_toJson (build?_args elem)
      simp only [kind, args, build?, List.map_cons, List.map_nil, helem, Option.map_some]

theorem typesOf?_toJsonAll : ∀ types : List GoType,
    typesOf? (partItems (toJsonAll types)) = some types
  | [] => rfl
  | type :: rest => by
      have htype := type?_part_toJson (build?_args type)
      have hrest := typesOf?_toJsonAll rest
      simp only [typesOf?] at hrest
      simp only [toJsonAll, partItems, typesOf?, List.mapM_cons, htype, hrest]
      rfl

end

mutual

theorem isTextual_toJson : ∀ type : GoType, type.toJson.isTextual = true
  | .primitive _ => by simp [toJson, isTextual_obj]
  | .array elem => by simp [toJson, isTextual_obj, isTextual_toJson elem]
  | .map key value => by
      simp [toJson, isTextual_obj, isTextual_toJson key, isTextual_toJson value]
  | .struct fields => by simp [toJson, isTextual_obj, isTextual_toJsonAll fields]
  | .interface methods => by simp [toJson, isTextual_obj, isTextual_toJsonAll methods]
  | .pointer target => by simp [toJson, isTextual_obj, isTextual_toJson target]
  | .selector _ _ => by simp [toJson, isTextual_obj]
  | .func args results => by
      simp [toJson, isTextual_obj, isTextual_toJsonAll args, isTextual_toJsonAll results]
  | .channel elem _ => by simp [toJson, isTextual_obj, isTextual_toJson elem]
  | .ellipsis elem => by simp [toJson, isTextual_obj, isTextual_toJson elem]

theorem isTextual_toJsonAll : ∀ types : List GoType, (Json.arr (toJsonAll types)).isTextual = true
  | [] => rfl
  | type :: rest => by
      have hrest := isTextual_toJsonAll rest
      rw [isTextual_arr] at hrest ⊢
      rw [toJsonAll, List.forall_mem_cons]
      exact ⟨isTextual_toJson type, hrest⟩

end

theorem ofJson?_toJson (type : GoType) : ofJson? type.toJson = some type := by
  have hplain : type.toJson.isPlain = true := isPlain_of_isTextual (isTextual_toJson type)
  unfold ofJson?
  rw [if_pos hplain, toJson_eq]
  exact (ofEntries?_args false type.kind type.length_args).trans (build?_args type)

/-! ## The nesting of what is decoded -/

/-- What a part is decoded to is not nested deeper than `bound`. -/
structure Part.Within (part : Part) (bound : Nat) : Prop where
  type : ∀ {type}, part.type? = some type → type.toJson.nesting ≤ bound
  types : ∀ {types}, part.types? = some types → (Json.arr (toJsonAll types)).nesting ≤ bound

theorem Part.Within.mono {part : Part} {bound bound' : Nat} (hwithin : part.Within bound)
    (hle : bound ≤ bound') : part.Within bound' :=
  ⟨fun htype => Nat.le_trans (hwithin.type htype) hle,
    fun htypes => Nat.le_trans (hwithin.types htypes) hle⟩

theorem Part.Within.of_none {part : Part} {bound : Nat} (htype : part.type? = none)
    (htypes : part.types? = none) : part.Within bound :=
  ⟨fun hsome => absurd (htype ▸ hsome) (by simp), fun hsome => absurd (htypes ▸ hsome) (by simp)⟩

theorem nesting_toJson_le {type : GoType} {bound : Nat}
    (hargs : ∀ arg ∈ type.args, arg.nesting ≤ bound) : type.toJson.nesting ≤ bound + 1 := by
  rw [toJson_eq, nesting_obj_le, List.forall_mem_cons]
  refine ⟨Nat.succ_pos _, Nat.succ_pos _, ?_⟩
  intro entry hmem
  obtain ⟨arg, harg, heq⟩ := List.mem_map.mp (mem_of_mem_present hmem).2
  cases heq
  exact Nat.lt_succ_of_le (hargs _ harg)

theorem nesting_of_build? {kind : Kind} {fields : List (Option Part)} {type : GoType}
    {bound : Nat} (hbuild : build? kind fields = some type)
    (hwithin : ∀ part, some part ∈ fields → part.Within bound) :
    type.toJson.nesting ≤ bound + 1 := by
  refine nesting_toJson_le ?_
  unfold build? at hbuild
  -- One case for each kind; a name is not nested, and other arguments are within the bound.
  split at hbuild
  case h_1 =>
    obtain ⟨name, _, rfl⟩ := Option.map_eq_some_iff.mp hbuild
    simp [args]
  case h_2 value =>
    obtain ⟨elem, helem, rfl⟩ := Option.map_eq_some_iff.mp hbuild
    have helem := (hwithin value (by simp)).type helem
    simp [args, helem]
  case h_3 key value =>
    obtain ⟨keyType, hkey, hbuild⟩ := Option.bind_eq_some_iff.mp hbuild
    obtain ⟨valueType, hvalue, rfl⟩ := Option.map_eq_some_iff.mp hbuild
    have hkey := (hwithin key (by simp)).type hkey
    have hvalue := (hwithin value (by simp)).type hvalue
    simp [args, hkey, hvalue]
  case h_4 fields =>
    obtain ⟨fieldTypes, hfields, rfl⟩ := Option.map_eq_some_iff.mp hbuild
    have hfields := (hwithin fields (by simp)).types hfields
    simp [args, hfields]
  case h_5 methods =>
    obtain ⟨methodTypes, hmethods, rfl⟩ := Option.map_eq_some_iff.mp hbuild
    have hmethods := (hwithin methods (by simp)).types hmethods
    simp [args, hmethods]
  case h_6 value =>
    obtain ⟨target, htarget, rfl⟩ := Option.map_eq_some_iff.mp hbuild
    have htarget := (hwithin value (by simp)).type htarget
    simp [args, htarget]
  case h_7 =>
    obtain ⟨package, _, hbuild⟩ := Option.bind_eq_some_iff.mp hbuild
    obtain ⟨name, _, rfl⟩ := Option.map_eq_some_iff.mp hbuild
    simp [args]
  case h_8 params results =>
    obtain ⟨paramTypes, hparams, hbuild⟩ := Option.bind_eq_some_iff.mp hbuild
    obtain ⟨resultTypes, hresults, rfl⟩ := Option.map_eq_some_iff.mp hbuild
    have hparams := (hwithin params (by simp)).types hparams
    have hresults := (hwithin results (by simp)).types hresults
    simp [args, hparams, hresults]
  case h_9 value dir =>
    obtain ⟨elem, helem, hbuild⟩ := Option.bind_eq_some_iff.mp hbuild
    obtain ⟨direction, _, rfl⟩ := Option.map_eq_some_iff.mp hbuild
    have helem := (hwithin value (by simp)).type helem
    simp [args, helem]
  case h_10 value =>
    obtain ⟨elem, helem, rfl⟩ := Option.map_eq_some_iff.mp hbuild
    have helem := (hwithin value (by simp)).type helem
    simp [args, helem]
  case h_11 => cases hbuild

theorem nesting_of_ofEntries? {byNumber : Bool} {entries : List (String × Part)} {type : GoType}
    {bound : Nat} (htype : ofEntries? byNumber entries = some type)
    (hwithin : ∀ entry ∈ entries, entry.2.Within bound) : type.toJson.nesting ≤ bound + 1 := by
  unfold ofEntries? at htype
  split at htype
  · obtain ⟨kind, _, htype⟩ := Option.bind_eq_some_iff.mp htype
    obtain ⟨fields, hfields, hbuild⟩ := Option.bind_eq_some_iff.mp htype
    refine nesting_of_build? hbuild fun part hmem => ?_
    obtain ⟨key, hentry⟩ := mem_of_namedFields? hfields hmem
    exact hwithin _ (List.mem_of_mem_filter hentry)
  · cases htype

theorem nesting_of_ofItems? {byNumber : Bool} {parts : List Part} {type : GoType} {bound : Nat}
    (htype : ofItems? byNumber parts = some type) (hwithin : ∀ part ∈ parts, part.Within bound) :
    type.toJson.nesting ≤ bound + 1 := by
  cases parts with
  | nil => cases htype
  | cons first parts =>
      obtain ⟨kind, _, htype⟩ := Option.bind_eq_some_iff.mp htype
      obtain ⟨fields, hfields, hbuild⟩ := Option.bind_eq_some_iff.mp htype
      refine nesting_of_build? hbuild fun part hmem => ?_
      exact hwithin _ (List.mem_cons_of_mem _ (mem_of_listedFields? hfields hmem))

theorem toJsonAll_eq_map (types : List GoType) : toJsonAll types = types.map toJson := by
  induction types with
  | nil => rfl
  | cons type rest ih => rw [toJsonAll, ih, List.map_cons]

theorem nesting_of_typesOf? {parts : List Part} {types : List GoType} {bound : Nat}
    (htypes : typesOf? parts = some types) (hwithin : ∀ part ∈ parts, part.Within bound) :
    (Json.arr (toJsonAll types)).nesting ≤ bound + 1 := by
  rw [nesting_arr_le, toJsonAll_eq_map]
  refine ⟨Nat.succ_pos _, fun json hmem => ?_⟩
  obtain ⟨type, htype, rfl⟩ := List.mem_map.mp hmem
  obtain ⟨part, hpart, htype⟩ := exists_of_mem_mapM htypes htype
  exact Nat.lt_succ_of_le ((hwithin part hpart).type htype)

mutual

theorem part_within : ∀ json : Json, (part json).Within json.nesting
  | .obj entries => by
      have hentries := partEntries_within entries
      rw [part, nesting]
      exact ⟨fun htype => nesting_of_ofEntries? htype hentries, fun htypes => by cases htypes⟩
  | .arr items => by
      have hitems := partItems_within items
      rw [part, nesting]
      exact ⟨fun htype => nesting_of_ofItems? htype hitems,
        fun htypes => nesting_of_typesOf? htypes hitems⟩
  | .null => .of_none rfl rfl
  | .bool _ => .of_none rfl rfl
  | .int _ => .of_none rfl rfl
  | .decimal _ _ => .of_none rfl rfl
  | .str _ => .of_none rfl rfl
  | .raw _ => .of_none rfl rfl

theorem partItems_within : ∀ items : List Json,
    ∀ part ∈ partItems items, part.Within (nestingItems items)
  | [] => fun _ hmem => absurd hmem List.not_mem_nil
  | item :: rest => by
      have hrest := partItems_within rest
      rw [partItems, nestingItems, List.forall_mem_cons]
      refine ⟨(part_within item).mono (Nat.le_max_left _ _), fun part hmem => ?_⟩
      exact (hrest part hmem).mono (Nat.le_max_right _ _)

theorem partEntries_within : ∀ entries : List (String × Json),
    ∀ entry ∈ partEntries entries, entry.2.Within (nestingEntries entries)
  | [] => fun _ hmem => absurd hmem List.not_mem_nil
  | (key, value) :: rest => by
      have hrest := partEntries_within rest
      rw [partEntries, nestingEntries, List.forall_mem_cons]
      refine ⟨(part_within value).mono (Nat.le_max_left _ _), fun entry hmem => ?_⟩
      exact (hrest entry hmem).mono (Nat.le_max_right _ _)

end

theorem nesting_of_ofJson? {json : Json} {type : GoType} (htype : ofJson? json = some type) :
    type.toJson.nesting ≤ json.nesting := by
  unfold ofJson? at htype
  split at htype
  · split at htype
    · exact nesting_of_ofEntries? htype (partEntries_within _)
    · exact nesting_of_ofItems? htype (partItems_within _)
    · cases htype
  · cases htype

/-- A type is decoded to itself. -/
theorem roundTrips : RoundTrips toJson ofJson? id where
  textual := isTextual_toJson
  decode_encode := ofJson?_toJson
  of_decode := fun htype => ⟨nesting_of_ofJson? htype, rfl⟩

end GoType

end GoAtlas
