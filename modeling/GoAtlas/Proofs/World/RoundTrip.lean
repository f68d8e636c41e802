import Mathlib
import GoAtlas.Proofs.GoType.RoundTrip
import GoAtlas.Proofs.Json.ReadBack
import GoAtlas.World.Json

/-!
# Worlds read back from JSON

A world is read back from its text, written on one line or over several (`World.read?_form`),
without what the text does not hold: the bookkeeping of the constants of a file, which
`FileModel.forget` resets.  The nesting of the world has to be within the limit of the reader.
It always is for a world that comes from a text (`World.reread_form`).

Every record of a world has its `roundTrips`.  They all follow from `RoundTrips.record` in the
same three steps: the fields have no numbers, they are decoded to what was encoded, and fields
that have been decoded are not nested deeper when they are encoded again.
-/

namespace GoAtlas

open Json

/-! ## Fields that are left out -/

section UnlessEmpty

variable {α : Type} {encode : α → Json} {decode? : Json → Option α} {forget : α → α}

/-- The field of a table, left out when the table is empty. -/
def fieldUnlessEmpty (encode : α → Json) (table : Table α) : Option Json :=
  if table.isEmpty then none else some (ofTable encode table)

theorem present_fieldUnlessEmpty (key : String) (names : List String) (table : Table α)
    (fields : List (Option Json)) :
    present (key :: names) (fieldUnlessEmpty encode table :: fields) =
      entryUnlessEmpty key encode table ++ present names fields := by
  unfold fieldUnlessEmpty entryUnlessEmpty
  split
  · rfl
  · rfl

theorem textual_fieldUnlessEmpty (h : RoundTrips encode decode? forget) {table : Table α}
    {field : Json} (hfield : some field = fieldUnlessEmpty encode table) :
    field.isTextual = true := by
  unfold fieldUnlessEmpty at hfield
  split at hfield
  · cases hfield
  · cases hfield
    exact h.table.textual table

theorem optional?_fieldUnlessEmpty (h : RoundTrips encode decode? forget) (table : Table α) :
    optional? Table.empty (table? decode?) (fieldUnlessEmpty encode table) =
      some (table.map forget) := by
  unfold fieldUnlessEmpty
  split
  · rename_i hempty
    have hentries : table.entries = [] := List.isEmpty_iff.mp hempty
    have hmap : table.map forget = Table.empty := by
      simp only [Table.map, Table.empty, hentries, List.map_nil]
    rw [hmap]
    rfl
  · exact h.table.decode_encode table

theorem fit_fieldUnlessEmpty (h : RoundTrips encode decode? forget) {table : Table α}
    {given fields : List (Option Json)} {field : Option Json} {n : Nat}
    (htable : optional? Table.empty (table? decode?) field = some table) (hgiven : Fit n given)
    (hmem : field ∈ given) (hfields : Fit n fields) :
    Fit n (fieldUnlessEmpty encode table :: fields) ∧ table.map forget = table := by
  cases field with
  | none =>
      cases htable
      exact ⟨fit_cons_none.mpr hfields, rfl⟩
  | some json =>
      obtain ⟨hnesting, hforget⟩ := h.table.of_decode htable
      refine ⟨?_, hforget⟩
      unfold fieldUnlessEmpty
      split
      · exact fit_cons_none.mpr hfields
      · exact fit_cons_some.mpr ⟨Nat.lt_of_le_of_lt hnesting (hgiven json hmem), hfields⟩

end UnlessEmpty

/-! ## What a file contributes -/

theorem Import.roundTrips : RoundTrips Import.toJson Import.ofJson? id := by
  refine RoundTrips.record ["name", "fullname", "needparse"]
    (fun entry => [some (.str entry.name), some (.str entry.fullName), some (.bool entry.needed)])
    (by decide) (fun _ => rfl) (fun _ => rfl) (fun _ => rfl) ?_ ?_ ?_
  · intro entry
    simp
  · intro entry
    rfl
  · intro given entry n hentry hgiven
    split at hentry
    · simp only [Option.bind_eq_bind, Option.bind_eq_some_iff, Option.pure_def,
        Option.some.injEq] at hentry
      obtain ⟨_, hname, _, hfullName, _, hneeded, rfl⟩ := hentry
      have hname := RoundTrips.text.required hname hgiven (by simp)
      have hfullName := RoundTrips.text.required hfullName hgiven (by simp)
      have hneeded := RoundTrips.bool.required hneeded hgiven (by simp)
      simp only [fit_cons_some, fit_nil, and_true]
      exact ⟨⟨hname.1, hfullName.1, hneeded.1⟩, rfl⟩
    · cases hentry

theorem StructField.roundTrips : RoundTrips StructField.toJson StructField.ofJson? id := by
  have htags : RoundTrips tagsToJson (table? (list? text?)) id := RoundTrips.text.list_id.table_id
  refine RoundTrips.record ["name", "tags", "type", "embed"]
    (fun field => [some (.str field.name), some (tagsToJson field.tags), some field.type.toJson,
      some (.bool field.embedded)])
    (by decide) (fun _ => rfl) (fun _ => rfl) (fun _ => rfl) ?_ ?_ ?_
  · intro field
    simp [htags.textual, GoType.roundTrips.textual]
  · intro field
    simp only [required?, Option.bind_some, htags.decode_encode, GoType.roundTrips.decode_encode]
    rfl
  · intro given field n hfield hgiven
    split at hfield
    · simp only [Option.bind_eq_bind, Option.bind_eq_some_iff, Option.pure_def,
        Option.some.injEq] at hfield
      obtain ⟨_, hname, _, htagged, _, htype, _, hembedded, rfl⟩ := hfield
      have hname := RoundTrips.text.required hname hgiven (by simp)
      have htagged := htags.required htagged hgiven (by simp)
      have htype := GoType.roundTrips.required htype hgiven (by simp)
      have hembedded := RoundTrips.bool.required hembedded hgiven (by simp)
      simp only [fit_cons_some, fit_nil, and_true]
      exact ⟨⟨hname.1, htagged.1, htype.1, hembedded.1⟩, rfl⟩
    · cases hfield

theorem StructModel.roundTrips : RoundTrips StructModel.toJson StructModel.ofJson? id := by
  have hfields := StructField.roundTrips.table_id
  refine RoundTrips.record ["name", "fields"]
    (fun model => [some (.str model.name), some (ofTable StructField.toJson model.fields)])
    (by decide) (fun _ => rfl) (fun _ => rfl) (fun _ => rfl) ?_ ?_ ?_
  · intro model
    simp [hfields.textual]
  · intro model
    simp only [required?, Option.bind_some, hfields.decode_encode]
    rfl
  · intro given model n hmodel hgiven
    split at hmodel
    · simp only [Option.bind_eq_bind, Option.bind_eq_some_iff, Option.pure_def,
        Option.some.injEq] at hmodel
      obtain ⟨_, hname, _, hmembers, rfl⟩ := hmodel
      have hname := RoundTrips.text.required hname hgiven (by simp)
      have hmembers := hfields.required hmembers hgiven (by simp)
      simp only [fit_cons_some, fit_nil, and_true]
      exact ⟨⟨hname.1, hmembers.1⟩, rfl⟩
    · cases hmodel

theorem InterfaceModel.roundTrips : RoundTrips InterfaceModel.toJson InterfaceModel.ofJson? id := by
  refine RoundTrips.record ["name"]
    (fun model => [some (.str model.name)])
    (by decide) (fun _ => rfl) (fun _ => rfl) (fun _ => rfl) ?_ ?_ ?_
  · intro model
    simp
  · intro model
    rfl
  · intro given model n hmodel hgiven
    split at hmodel
    · simp only [Option.bind_eq_bind, Option.bind_eq_some_iff, Option.pure_def,
        Option.some.injEq] at hmodel
      obtain ⟨_, hname, rfl⟩ := hmodel
      have hname := RoundTrips.text.required hname hgiven (by simp)
      simp only [fit_cons_some, fit_nil, and_true]
      exact ⟨hname.1, rfl⟩
    · cases hmodel

/-- A value of an alias as it is after reading. -/
def AliasValue.forget (value : AliasValue) : AliasValue :=
  { value with typeName := "", seq := 0 }

theorem AliasValue.roundTrips :
    RoundTrips AliasValue.toJson AliasValue.ofJson? AliasValue.forget := by
  refine RoundTrips.record ["name", "value"]
    (fun value => [some (.str value.name), some (.str value.value)])
    (by decide) (fun _ => rfl) (fun _ => rfl) (fun _ => rfl) ?_ ?_ ?_
  · intro value
    simp
  · intro value
    rfl
  · intro given value n hvalue hgiven
    split at hvalue
    · simp only [Option.bind_eq_bind, Option.bind_eq_some_iff, Option.pure_def,
        Option.some.injEq] at hvalue
      obtain ⟨_, hname, _, hliteral, rfl⟩ := hvalue
      have hname := RoundTrips.text.required hname hgiven (by simp)
      have hliteral := RoundTrips.text.required hliteral hgiven (by simp)
      simp only [fit_cons_some, fit_nil, and_true]
      exact ⟨⟨hname.1, hliteral.1⟩, rfl⟩
    · cases hvalue

/-- An alias as it is after reading. -/
def Alias.forget (model : Alias) : Alias :=
  { model with candidates := model.candidates.map AliasValue.forget, sources := [] }

theorem Alias.roundTrips : RoundTrips Alias.toJson Alias.ofJson? Alias.forget := by
  have hcandidates := AliasValue.roundTrips.list
  refine RoundTrips.record ["name", "original", "candidates"]
    (fun model => [some (.str model.name), some model.target.toJson,
      some (.arr (model.candidates.map AliasValue.toJson))])
    (by decide) (fun _ => rfl) (fun _ => rfl) (fun _ => rfl) ?_ ?_ ?_
  · intro model
    simp [hcandidates.textual, GoType.roundTrips.textual]
  · intro model
    simp only [required?, Option.bind_some, hcandidates.decode_encode,
      GoType.roundTrips.decode_encode]
    rfl
  · intro given model n hmodel hgiven
    split at hmodel
    · simp only [Option.bind_eq_bind, Option.bind_eq_some_iff, Option.pure_def,
        Option.some.injEq] at hmodel
      obtain ⟨_, hname, _, htarget, _, hlisted, rfl⟩ := hmodel
      have hname := RoundTrips.text.required hname hgiven (by simp)
      have htarget := GoType.roundTrips.required htarget hgiven (by simp)
      have hlisted := hcandidates.required hlisted hgiven (by simp)
      simp only [fit_cons_some, fit_nil, and_true]
      exact ⟨⟨hname.1, htarget.1, hlisted.1⟩, by rw [Alias.forget, hlisted.2]⟩
    · cases hmodel

/-- What a file contributes in types as it is after reading. -/
def FileModel.forget (file : FileModel) : FileModel :=
  { file with aliases := file.aliases.map Alias.forget, pending := [] }

theorem FileModel.roundTrips :
    RoundTrips FileModel.toJson FileModel.ofJson? FileModel.forget := by
  refine RoundTrips.record ["name", "alias", "struct", "interface", "import"]
    (fun file => [some (.str file.name), fieldUnlessEmpty Alias.toJson file.aliases,
      fieldUnlessEmpty StructModel.toJson file.structs,
      fieldUnlessEmpty InterfaceModel.toJson file.interfaces,
      fieldUnlessEmpty Import.toJson file.imports])
    (by decide) (fun _ => rfl) ?_ (fun _ => rfl) ?_ ?_ ?_
  · intro file
    rw [present, present_fieldUnlessEmpty, present_fieldUnlessEmpty, present_fieldUnlessEmpty,
      present_fieldUnlessEmpty]
    simp [FileModel.toJson, present]
  · intro file field hmem
    simp only [List.mem_cons, Option.some.injEq, List.not_mem_nil, or_false] at hmem
    rcases hmem with rfl | hmem | hmem | hmem | hmem
    · rfl
    · exact textual_fieldUnlessEmpty Alias.roundTrips hmem
    · exact textual_fieldUnlessEmpty StructModel.roundTrips hmem
    · exact textual_fieldUnlessEmpty InterfaceModel.roundTrips hmem
    · exact textual_fieldUnlessEmpty Import.roundTrips hmem
  · intro file
    simp only [optional?_fieldUnlessEmpty Alias.roundTrips,
      optional?_fieldUnlessEmpty StructModel.roundTrips,
      optional?_fieldUnlessEmpty InterfaceModel.roundTrips,
      optional?_fieldUnlessEmpty Import.roundTrips, Table.map_id]
    rfl
  · intro given file n hfile hgiven
    split at hfile
    · simp only [Option.bind_eq_bind, Option.bind_eq_some_iff, Option.pure_def,
        Option.some.injEq] at hfile
      obtain ⟨_, hname, _, haliases, _, hstructs, _, hinterfaces, _, himports, rfl⟩ := hfile
      have hname := RoundTrips.text.required hname hgiven (by simp)
      have himports := fit_fieldUnlessEmpty Import.roundTrips himports hgiven (by simp) fit_nil
      have hinterfaces := fit_fieldUnlessEmpty InterfaceModel.roundTrips hinterfaces hgiven
        (by simp) himports.1
      have hstructs := fit_fieldUnlessEmpty StructModel.roundTrips hstructs hgiven (by simp)
        hinterfaces.1
      have haliases := fit_fieldUnlessEmpty Alias.roundTrips haliases hgiven (by simp)
        hstructs.1
      exact ⟨fit_cons_some.mpr ⟨hname.1, haliases.1⟩, by rw [FileModel.forget, haliases.2]⟩
    · cases hfile

/-! ## What a file contributes in functions -/

theorem FuncParam.roundTrips : RoundTrips FuncParam.toJson FuncParam.ofJson? id := by
  refine RoundTrips.record ["name", "type"]
    (fun param => [some (.str param.name), some param.type.toJson])
    (by decide) (fun _ => rfl) (fun _ => rfl) (fun _ => rfl) ?_ ?_ ?_
  · intro param
    simp [GoType.roundTrips.textual]
  · intro param
    simp only [required?, Option.bind_some, GoType.roundTrips.decode_encode]
    rfl
  · intro given param n hparam hgiven
    split at hparam
    · simp only [Option.bind_eq_bind, Option.bind_eq_some_iff, Option.pure_def,
        Option.some.injEq] at hparam
      obtain ⟨_, hname, _, htype, rfl⟩ := hparam
      have hname := RoundTrips.text.required hname hgiven (by simp)
      have htype := GoType.roundTrips.required htype hgiven (by simp)
      simp only [fit_cons_some, fit_nil, and_true]
      exact ⟨⟨hname.1, htype.1⟩, rfl⟩
    · cases hparam

theorem FuncModel.roundTrips : RoundTrips FuncModel.toJson FuncModel.ofJson? id := by
  have hlist := FuncParam.roundTrips.list_id
  refine RoundTrips.record ["name", "params", "returns"]
    (fun model => [some (.str model.name), some (.arr (model.params.map FuncParam.toJson)),
      some (.arr (model.returns.map FuncParam.toJson))])
    (by decide) (fun _ => rfl) (fun _ => rfl) (fun _ => rfl) ?_ ?_ ?_
  · intro model
    simp [hlist.textual]
  · intro model
    simp only [required?, Option.bind_some, hlist.decode_encode]
    rfl
  · intro given model n hmodel hgiven
    split at hmodel
    · simp only [Option.bind_eq_bind, Option.bind_eq_some_iff, Option.pure_def,
        Option.some.injEq] at hmodel
      obtain ⟨_, hname, _, hparams, _, hreturns, rfl⟩ := hmodel
      have hname := RoundTrips.text.required hname hgiven (by simp)
      have hparams := hlist.required hparams hgiven (by simp)
      have hreturns := hlist.required hreturns hgiven (by simp)
      simp only [fit_cons_some, fit_nil, and_true]
      exact ⟨⟨hname.1, hparams.1, hreturns.1⟩, rfl⟩
    · cases hmodel

theorem FuncFile.roundTrips : RoundTrips FuncFile.toJson FuncFile.ofJson? id := by
  have hfunctions := FuncModel.roundTrips.table_id
  refine RoundTrips.record ["name", "function", "import"]
    (fun file => [some (.str file.name), some (ofTable FuncModel.toJson file.functions),
      fieldUnlessEmpty Import.toJson file.imports])
    (by decide) (fun _ => rfl) ?_ (fun _ => rfl) ?_ ?_ ?_
  · intro file
    rw [present, present, present_fieldUnlessEmpty]
    simp [FuncFile.toJson, present]
  · intro file field hmem
    simp only [List.mem_cons, Option.some.injEq, List.not_mem_nil, or_false] at hmem
    rcases hmem with rfl | rfl | hmem
    · rfl
    · exact hfunctions.textual file.functions
    · exact textual_fieldUnlessEmpty Import.roundTrips hmem
  · intro file
    simp only [required?, Option.bind_some, hfunctions.decode_encode,
      optional?_fieldUnlessEmpty Import.roundTrips, Table.map_id]
    rfl
  · intro given file n hfile hgiven
    split at hfile
    · simp only [Option.bind_eq_bind, Option.bind_eq_some_iff, Option.pure_def,
        Option.some.injEq] at hfile
      obtain ⟨_, hname, _, hmodels, _, himports, rfl⟩ := hfile
      have hname := RoundTrips.text.required hname hgiven (by simp)
      have hmodels := hfunctions.required hmodels hgiven (by simp)
      have himports := fit_fieldUnlessEmpty Import.roundTrips himports hgiven (by simp) fit_nil
      exact ⟨fit_cons_some.mpr ⟨hname.1, fit_cons_some.mpr ⟨hmodels.1, himports.1⟩⟩, rfl⟩
    · cases hfile

/-! ## Modules and worlds -/

section World

variable {φ : Type} {encode : φ → Json} {decode? : Json → Option φ} {forget : φ → φ}

def GoModule.mapFiles (f : φ → φ) (module : GoModule φ) : GoModule φ :=
  { module with files := module.files.map f }

/-- The world with `f` applied to what each file contributes. -/
def World.mapFiles (f : φ → φ) (world : World φ) : World φ :=
  { modules := world.modules.map (GoModule.mapFiles f) }

theorem World.mapFiles_id (world : World φ) : world.mapFiles id = world := by
  have hmodule : ∀ module : GoModule φ, module.mapFiles id = module := by
    intro module
    rw [GoModule.mapFiles, Table.map_id]
  rw [World.mapFiles, Table.map_eq_self fun entry _ => hmodule entry.2]

theorem GoModule.roundTrips (h : RoundTrips encode decode? forget) :
    RoundTrips (GoModule.toJson encode) (GoModule.ofJson? decode?) (GoModule.mapFiles forget) := by
  have htable := h.table
  refine RoundTrips.record ["name", "fullname", "file"]
    (fun module => [some (.str module.name), some (.str module.fullName),
      some (ofTable encode module.files)])
    (by decide) (fun _ => rfl) (fun _ => rfl) (fun _ => rfl) ?_ ?_ ?_
  · intro module
    simp [htable.textual]
  · intro module
    simp only [required?, Option.bind_some, htable.decode_encode]
    rfl
  · intro given module n hmodule hgiven
    split at hmodule
    · simp only [Option.bind_eq_bind, Option.bind_eq_some_iff, Option.pure_def,
        Option.some.injEq] at hmodule
      obtain ⟨_, hname, _, hfullName, _, hfiles, rfl⟩ := hmodule
      have hname := RoundTrips.text.required hname hgiven (by simp)
      have hfullName := RoundTrips.text.required hfullName hgiven (by simp)
      have hfiles := htable.required hfiles hgiven (by simp)
      simp only [fit_cons_some, fit_nil, and_true]
      exact ⟨⟨hname.1, hfullName.1, hfiles.1⟩, by rw [GoModule.mapFiles, hfiles.2]⟩
    · cases hmodule

theorem World.roundTrips (h : RoundTrips encode decode? forget) :
    RoundTrips (World.toJson encode) (World.ofJson? decode?) (World.mapFiles forget) := by
  have htable := (GoModule.roundTrips h).table
  refine RoundTrips.record ["module"]
    (fun world => [some (ofTable (GoModule.toJson encode) world.modules)])
    (by decide) (fun _ => rfl) (fun _ => rfl) (fun _ => rfl) ?_ ?_ ?_
  · intro world
    simp [htable.textual]
  · intro world
    simp only [required?, Option.bind_some, htable.decode_encode]
    rfl
  · intro given world n hworld hgiven
    split at hworld
    · simp only [Option.bind_eq_bind, Option.bind_eq_some_iff, Option.pure_def,
        Option.some.injEq] at hworld
      obtain ⟨_, hmodules, rfl⟩ := hworld
      have hmodules := htable.required hmodules hgiven (by simp)
      simp only [fit_cons_some, fit_nil, and_true]
      exact ⟨hmodules.1, by rw [World.mapFiles, hmodules.2]⟩
    · cases hworld

/-- The world that a text is the JSON form of. -/
def World.read? (decode? : Json → Option φ) (text : String) : Option (World φ) :=
  (scan? text).bind (World.ofJson? decode?)

/-- The ways to write a value. -/
def forms : List (Json → String) :=
  [Json.compact, Json.pretty]

theorem scan?_form {form : Json → String} (hform : form ∈ forms) {json : Json}
    (htextual : json.isTextual = true) (hnesting : json.nesting ≤ maxDepth) :
    scan? (form json) = some json := by
  simp only [forms, List.mem_cons, List.not_mem_nil, or_false] at hform
  rcases hform with rfl | rfl
  · exact scan?_compact htextual hnesting
  · exact scan?_pretty htextual hnesting

theorem World.read?_form (h : RoundTrips encode decode? forget) {form : Json → String}
    (hform : form ∈ forms) {world : World φ}
    (hnesting : (world.toJson encode).nesting ≤ maxDepth) :
    World.read? decode? (form (world.toJson encode)) = some (world.mapFiles forget) := by
  have hworld := World.roundTrips h
  rw [World.read?, scan?_form hform (hworld.textual world) hnesting]
  exact hworld.decode_encode world

/-- A world that comes from a text is read back as it is. -/
theorem World.reread_form (h : RoundTrips encode decode? forget) {form : Json → String}
    (hform : form ∈ forms) {text : String} {world : World φ}
    (hread : World.read? decode? text = some world) :
    World.read? decode? (form (world.toJson encode)) = some world := by
  obtain ⟨json, hscan, hdecode⟩ := Option.bind_eq_some_iff.mp hread
  obtain ⟨hnesting, hforget⟩ := (World.roundTrips h).of_decode hdecode
  have hlimit : (world.toJson encode).nesting ≤ maxDepth :=
    Nat.le_trans hnesting (nesting_le_of_scan? hscan)
  rw [World.read?_form h hform hlimit, hforget]

end World

/-- A world is read back from its text, compact or pretty, if the nesting is within the limit:
worlds of types without the bookkeeping of constants, worlds of functions as they are.  If a
world comes from a text, it is read back as it is, whatever that text was. -/
theorem World.text_roundTrips :
    (∀ form ∈ forms, ∀ world : World FileModel,
      (world.toJson FileModel.toJson).nesting ≤ maxDepth →
        World.read? FileModel.ofJson? (form (world.toJson FileModel.toJson)) =
          some (world.mapFiles FileModel.forget)) ∧
    (∀ form ∈ forms, ∀ world : World FuncFile,
      (world.toJson FuncFile.toJson).nesting ≤ maxDepth →
        World.read? FuncFile.ofJson? (form (world.toJson FuncFile.toJson)) = some world) ∧
    (∀ form ∈ forms, ∀ (text : String) (world : World FileModel),
      World.read? FileModel.ofJson? text = some world →
        World.read? FileModel.ofJson? (form (world.toJson FileModel.toJson)) = some world) ∧
    (∀ form ∈ forms, ∀ (text : String) (world : World FuncFile),
      World.read? FuncFile.ofJson? text = some world →
        World.read? FuncFile.ofJson? (form (world.toJson FuncFile.toJson)) = some world) := by
  refine ⟨?_, ?_, ?_, ?_⟩
  · intro form hform world hnesting
    exact World.read?_form FileModel.roundTrips hform hnesting
  · intro form hform world hnesting
    have hread := World.read?_form FuncFile.roundTrips hform hnesting
    rw [World.mapFiles_id] at hread
    exact hread
  · intro form hform text world hread
    exact World.reread_form FileModel.roundTrips hform hread
  · intro form hform text world hread
    exact World.reread_form FuncFile.roundTrips hform hread

/-- A world with one alias, whose value has the given bookkeeping. -/
def World.ofAlias (typeName : String) (seq : Nat) (pending : List AliasValue) :
    World FileModel :=
  let value : AliasValue := { typeName, name := "A", value := "\"\n\\", seq }
  let model : Alias :=
    { name := "T", target := .map (.primitive "int") (.channel (.struct []) .recv),
      candidates := [value] }
  let file : FileModel :=
    { name := "a.go", aliases := Table.empty.insert "T" model, pending }
  { modules := Table.empty.insert "m" { name := "m", files := Table.empty.insert "a.go" file } }

/-- The bookkeeping is lost in the text.  A text in which a module is a list, a name has an
escape and something else is too large to be read gives a world that is read back. -/
theorem World.text_roundTrips_ofAlias :
    World.read? FileModel.ofJson?
        ((World.ofAlias "T" 7 [⟨"U", "B", "1", 8⟩]).toJson FileModel.toJson).pretty =
      some (World.ofAlias "" 0 []) ∧
    World.read? FuncFile.ofJson?
        "\x7b\"module\": \x7b\"m\": [\"m\", \"\\u0041\", \x7b\x7d]\x7d, \"x\": 1e999\x7d" =
      some ⟨Table.empty.insert "m" { name := "m", fullName := "A" }⟩ ∧
    World.read? FuncFile.ofJson? (World.toJson FuncFile.toJson
        ⟨Table.empty.insert "m" { name := "m", fullName := "A" }⟩).compact =
      some ⟨Table.empty.insert "m" { name := "m", fullName := "A" }⟩ := by
  have hread : World.read? FuncFile.ofJson?
      "\x7b\"module\": \x7b\"m\": [\"m\", \"\\u0041\", \x7b\x7d]\x7d, \"x\": 1e999\x7d" =
        some ⟨Table.empty.insert "m" { name := "m", fullName := "A" }⟩ := by cbv
  obtain ⟨hwritten, -, -, hreread⟩ := World.text_roundTrips
  exact ⟨hwritten _ (by simp [forms]) _ (by decide), hread,
    hreread _ (by simp [forms]) _ _ hread⟩

end GoAtlas
