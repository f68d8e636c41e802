import GoAtlas.Command.Run
import GoAtlas.Proofs.Settings.RoundTrip
import GoAtlas.Proofs.Table
import Mathlib.Logic.Function.Basic

/-!
# Changing one setting

A setting is changed in the JSON form of all settings, which is then decoded as a whole.
That form holds one value for each of the eight settings (`form`), so a change replaces one of
them (`setAt_form`), and the values of the others are decoded to what they were encoded from.
`runSet_frame` says what this does to the settings file.
-/

namespace GoAtlas

/-- A place in the settings that can be changed on its own. -/
inductive Setting where
  | exclude
  | maxDepth
  | includeTests
  | keepEmpty
  | workspaceRoot
  | systemRoot
  | moduleCache
  | pretty
deriving DecidableEq, Repr

namespace Setting

/-- The section and the field that name a setting. -/
def path : Setting → List String
  | .exclude => ["walk", "exclude"]
  | .maxDepth => ["walk", "max_depth"]
  | .includeTests => ["walk", "include_tests"]
  | .keepEmpty => ["walk", "keep_empty_files"]
  | .workspaceRoot => ["paths", "workspace_root"]
  | .systemRoot => ["paths", "system_root"]
  | .moduleCache => ["paths", "module_cache"]
  | .pretty => ["output", "pretty"]

/-- The JSON form of what is set. -/
def value (settings : Settings) : Setting → Json
  | .exclude => .arr (settings.walk.exclude.map .str)
  | .maxDepth => Settings.optionToJson (fun n => .int (Int.ofNat n)) settings.walk.maxDepth
  | .includeTests => .bool settings.walk.includeTests
  | .keepEmpty => .bool settings.walk.keepEmpty
  | .workspaceRoot => Settings.optionToJson .str settings.paths.workspaceRoot
  | .systemRoot => Settings.optionToJson .str settings.paths.systemRoot
  | .moduleCache => Settings.optionToJson .str settings.paths.moduleCache
  | .pretty => .bool settings.output.pretty

/-- The settings with what a JSON value stands for in one place, and everything else as it
is. -/
def put? (json : Json) (settings : Settings) : Setting → Option Settings
  | .exclude => (Json.format.texts? json).map fun exclude =>
      { settings with walk := { settings.walk with exclude } }
  | .maxDepth => (Json.format.nullable? Json.format.natural? json).map fun maxDepth =>
      { settings with walk := { settings.walk with maxDepth } }
  | .includeTests => json.bool?.map fun includeTests =>
      { settings with walk := { settings.walk with includeTests } }
  | .keepEmpty => json.bool?.map fun keepEmpty =>
      { settings with walk := { settings.walk with keepEmpty } }
  | .workspaceRoot => (Json.format.nullable? Json.text? json).map fun workspaceRoot =>
      { settings with paths := { settings.paths with workspaceRoot } }
  | .systemRoot => (Json.format.nullable? Json.text? json).map fun systemRoot =>
      { settings with paths := { settings.paths with systemRoot } }
  | .moduleCache => (Json.format.nullable? Json.text? json).map fun moduleCache =>
      { settings with paths := { settings.paths with moduleCache } }
  | .pretty => json.bool?.map fun pretty => { settings with output := { pretty } }

end Setting

namespace Settings

variable {settings changed : Settings} {json : Json} {setting : Setting} {field : Setting → Json}

/-- The section for walks with given values, keys in order. -/
def walkForm (field : Setting → Json) : Json :=
  .obj [("exclude", field .exclude), ("include_tests", field .includeTests),
    ("keep_empty_files", field .keepEmpty), ("max_depth", field .maxDepth)]

/-- The section for paths with given values, keys in order. -/
def pathsForm (field : Setting → Json) : Json :=
  .obj [("module_cache", field .moduleCache), ("system_root", field .systemRoot),
    ("workspace_root", field .workspaceRoot)]

/-- The section for output with a given value. -/
def outputForm (field : Setting → Json) : Json :=
  .obj [("pretty", field .pretty)]

/-- The JSON form of settings with given values, keys in order. -/
def form (field : Setting → Json) : Json :=
  .obj [("output", outputForm field), ("paths", pathsForm field), ("walk", walkForm field)]

/-! ## Encoding and decoding values -/

theorem canonicalItems_strings (texts : List String) :
    Json.canonicalItems (texts.map .str) = texts.map .str := by
  induction texts with
  | nil => rfl
  | cons text texts ih => simp [Json.canonicalItems, Json.canonical, ih]

theorem canonical_optionToJson {α : Type} (encode : α → Json)
    (hencode : ∀ a, (encode a).canonical = encode a) (option : Option α) :
    (optionToJson encode option).canonical = optionToJson encode option := by
  cases option with
  | none => rfl
  | some a => exact hencode a

/-- The entries of an object with the keys of a section come in order. -/
theorem canonical_toJson (settings : Settings) :
    settings.toJson.canonical = form (Setting.value settings) := by
  have hexclude := canonicalItems_strings settings.walk.exclude
  have hdepth := canonical_optionToJson (fun n => Json.int (Int.ofNat n))
    (fun _ => rfl) settings.walk.maxDepth
  have hpath := canonical_optionToJson Json.str fun _ => rfl
  simp (disch := decide) only [toJson, walkToJson, pathsToJson, outputToJson, Json.canonical,
    Json.canonicalEntries, hexclude, hdepth, hpath, Table.ofList, List.foldl_cons, List.foldl_nil,
    Table.insert, Table.empty, Table.insertEntry_nil, Table.insertEntry_lt, Table.insertEntry_gt,
    form, walkForm, pathsForm, outputForm, Setting.value]

theorem texts?_arr (texts : List String) :
    Json.format.texts? (.arr (texts.map .str)) = some texts :=
  DataFormat.texts?_eq_some rfl fun _ => rfl

theorem text?_some {text : String} (htext : json.text? = some text) : json = .str text := by
  cases json <;> cases htext
  rfl

theorem bool?_some {b : Bool} (hbool : json.bool? = some b) : json = .bool b := by
  cases json <;> cases hbool
  rfl

theorem mapM_text?_some {items : List Json} {texts : List String}
    (htexts : items.mapM Json.text? = some texts) : items = texts.map .str := by
  induction items generalizing texts with
  | nil =>
      cases htexts
      rfl
  | cons item items ih =>
      simp only [List.mapM_cons, Option.bind_eq_bind, Option.bind_eq_some_iff] at htexts
      obtain ⟨text, htext, more, hmore, heq⟩ := htexts
      cases heq
      rw [text?_some htext, ih hmore, List.map_cons]

theorem texts?_some {texts : List String} (htexts : Json.format.texts? json = some texts) :
    json = .arr (texts.map .str) := by
  obtain ⟨items, hitems, hmap⟩ := Option.bind_eq_some_iff.mp htexts
  cases json <;> cases hitems
  rw [mapM_text?_some hmap]

/-- A value that may be missing is decoded from its own form only. -/
theorem nullable?_some {α : Type} {encode : α → Json} {decode : Json → Option α}
    {option : Option α} (hdecode : ∀ {json a}, decode json = some a → json = encode a)
    (hoption : Json.format.nullable? decode json = some option) :
    json = optionToJson encode option := by
  unfold DataFormat.nullable? at hoption
  split at hoption
  case isTrue hnull =>
    cases hoption
    cases json <;> first | rfl | cases hnull
  case isFalse hnull =>
    obtain ⟨a, ha, rfl⟩ := Option.map_eq_some_iff.mp hoption
    exact hdecode ha

theorem natural?_some {n : Nat} (hnatural : Json.format.natural? json = some n) :
    json = .int (Int.ofNat n) := by
  simp only [Json.format] at hnatural
  split at hnatural
  case h_1 m =>
    simp only [Option.ite_none_right_eq_some, Option.some.injEq] at hnatural
    rw [hnatural.2]
  case h_2 => cases hnatural

/-- What has been put in place has the JSON form that it was read from. -/
theorem value_put? (hput : setting.put? json settings = some changed) :
    setting.value changed = json := by
  cases setting with
  | exclude =>
      obtain ⟨exclude, hexclude, rfl⟩ := Option.map_eq_some_iff.mp hput
      exact (texts?_some hexclude).symm
  | maxDepth =>
      obtain ⟨maxDepth, hdepth, rfl⟩ := Option.map_eq_some_iff.mp hput
      exact (nullable?_some natural?_some hdepth).symm
  | includeTests | keepEmpty | pretty =>
      obtain ⟨b, hbool, rfl⟩ := Option.map_eq_some_iff.mp hput
      exact (bool?_some hbool).symm
  | workspaceRoot | systemRoot | moduleCache =>
      obtain ⟨root, hroot, rfl⟩ := Option.map_eq_some_iff.mp hput
      exact (nullable?_some text?_some hroot).symm

/-- Whether a value can be put in a place does not depend on the settings. -/
theorem exists_put? (hput : setting.put? json settings = some changed) (others : Settings) :
    ∃ result, setting.put? json others = some result := by
  cases setting <;>
    (obtain ⟨content, hcontent, -⟩ := Option.map_eq_some_iff.mp hput
     exact ⟨_, Option.map_eq_some_iff.mpr ⟨content, hcontent, rfl⟩⟩)

/-- Every other place keeps what it has. -/
theorem value_put?_of_ne {other : Setting} (hother : other ≠ setting)
    (hput : setting.put? json settings = some changed) :
    other.value changed = other.value settings := by
  cases setting <;>
    (obtain ⟨content, -, rfl⟩ := Option.map_eq_some_iff.mp hput
     cases other <;> first | rfl | exact absurd rfl hother)

theorem strings_injective {texts others : List String}
    (heq : Json.arr (texts.map .str) = .arr (others.map .str)) : texts = others := by
  have htexts := texts?_arr texts
  rw [heq, texts?_arr] at htexts
  exact (Option.some.inj htexts).symm

theorem optionToJson_injective {α : Type} {encode : α → Json} {a b : Option α}
    (hnull : ∀ value, encode value ≠ .null) (hencode : Function.Injective encode)
    (heq : optionToJson encode a = optionToJson encode b) : a = b := by
  cases a <;> cases b
  · rfl
  · exact absurd heq.symm (hnull _)
  · exact absurd heq (hnull _)
  · exact congrArg some (hencode heq)

/-- Settings with the same values are the same. -/
theorem eq_of_value (hvalue : ∀ setting : Setting, setting.value settings = setting.value changed) :
    settings = changed := by
  have hnatural : Function.Injective fun n : Nat => Json.int (Int.ofNat n) :=
    fun _ _ heq => Int.ofNat.inj (Json.int.inj heq)
  have htext : Function.Injective Json.str := fun _ _ heq => Json.str.inj heq
  have hexclude := strings_injective (hvalue .exclude)
  have hdepth := optionToJson_injective (by simp) hnatural (hvalue .maxDepth)
  have htests := Json.bool.inj (hvalue .includeTests)
  have hempty := Json.bool.inj (hvalue .keepEmpty)
  have hworkspace := optionToJson_injective (by simp) htext (hvalue .workspaceRoot)
  have hsystem := optionToJson_injective (by simp) htext (hvalue .systemRoot)
  have hcache := optionToJson_injective (by simp) htext (hvalue .moduleCache)
  have hpretty := Json.bool.inj (hvalue .pretty)
  obtain ⟨⟨_, _, _, _⟩, ⟨_, _, _⟩, ⟨_⟩⟩ := settings
  obtain ⟨⟨_, _, _, _⟩, ⟨_, _, _⟩, ⟨_⟩⟩ := changed
  simp_all

/-! ## Places in the form -/

theorem getAt?_form (field : Setting → Json) (setting : Setting) :
    (form field).getAt? setting.path = some (field setting) := by
  cases setting <;> rfl

theorem setAt_form (field : Setting → Json) (setting : Setting) (json : Json) :
    (form field).setAt json setting.path = .ok (form (Function.update field setting json)) := by
  cases setting <;> rfl

theorem mem_keys_of_entry? {entries : List (String × Json)} {key : String}
    (hentry : Json.entry? key entries = some json) : key ∈ entries.map Prod.fst := by
  induction entries with
  | nil => cases hentry
  | cons entry entries ih =>
      obtain ⟨k, value⟩ := entry
      simp only [Json.entry?] at hentry
      split at hentry
      case isTrue heq => simp [heq]
      case isFalse => exact List.mem_cons_of_mem _ (ih hentry)

/-- Only entries that exist are set. -/
theorem mem_keys_of_setEntry {entries : List (String × Json)} {key : String} {result : Json}
    (hset : (Json.obj entries).setEntry key json = .ok result) : key ∈ entries.map Prod.fst := by
  simp only [Json.setEntry] at hset
  split at hset
  case h_1 hentry => exact mem_keys_of_entry? hentry
  case h_2 => cases hset

/-- What is set below a section is set in that section. -/
theorem setEntry_of_setAt {entries : List (String × Json)} {head key : String} {result : Json}
    (hset : (Json.obj entries).setAt json [head, key] = .ok result) :
    ∃ inner changed, Json.entry? head entries = some inner ∧
      inner.setEntry key json = .ok changed := by
  simp only [Json.setAt, Json.entryOf?] at hset
  cases hentry : Json.entry? head entries with
  | none => simp [hentry] at hset
  | some inner =>
      cases hinner : inner.setEntry key json with
      | error fault => simp [hentry, hinner] at hset
      | ok changed => exact ⟨inner, changed, rfl, hinner⟩

/-- The places with a section and a field are those of the settings. -/
theorem exists_setting_of_setAt {keys : List String} {result : Json}
    (hset : (form field).setAt json keys = .ok result) (hlength : keys.length = 2) :
    ∃ setting : Setting, keys = setting.path := by
  match keys, hlength with
  | [head, key], _ =>
      obtain ⟨inner, changed, hentry, hinner⟩ := setEntry_of_setAt hset
      have hhead := mem_keys_of_entry? hentry
      simp only [List.map_cons, List.map_nil, List.mem_cons, List.not_mem_nil, or_false] at hhead
      rcases hhead with rfl | rfl | rfl
      · obtain rfl : outputForm field = inner := Option.some.inj hentry
        have hkey := mem_keys_of_setEntry hinner
        simp only [List.map_cons, List.map_nil, List.mem_cons, List.not_mem_nil, or_false] at hkey
        exact ⟨.pretty, by rw [hkey]; rfl⟩
      · obtain rfl : pathsForm field = inner := Option.some.inj hentry
        have hkey := mem_keys_of_setEntry hinner
        simp only [List.map_cons, List.map_nil, List.mem_cons, List.not_mem_nil, or_false] at hkey
        rcases hkey with rfl | rfl | rfl
        exacts [⟨.moduleCache, rfl⟩, ⟨.systemRoot, rfl⟩, ⟨.workspaceRoot, rfl⟩]
      · obtain rfl : walkForm field = inner := Option.some.inj hentry
        have hkey := mem_keys_of_setEntry hinner
        simp only [List.map_cons, List.map_nil, List.mem_cons, List.not_mem_nil, or_false] at hkey
        rcases hkey with rfl | rfl | rfl | rfl
        exacts [⟨.exclude, rfl⟩, ⟨.includeTests, rfl⟩, ⟨.keepEmpty, rfl⟩, ⟨.maxDepth, rfl⟩]

/-! ## Decoding the form -/

theorem walkFrom?_form :
    walkFrom? Json.format (walkForm field) = do
      let exclude ← Json.format.texts? (field .exclude)
      let maxDepth ← Json.format.nullable? Json.format.natural? (field .maxDepth)
      let includeTests ← (field .includeTests).bool?
      let keepEmpty ← (field .keepEmpty).bool?
      return ⟨exclude, maxDepth, includeTests, keepEmpty⟩ := rfl

theorem pathsFrom?_form :
    pathsFrom? Json.format (pathsForm field) = do
      let workspaceRoot ← Json.format.nullable? Json.text? (field .workspaceRoot)
      let systemRoot ← Json.format.nullable? Json.text? (field .systemRoot)
      let moduleCache ← Json.format.nullable? Json.text? (field .moduleCache)
      return ⟨workspaceRoot, systemRoot, moduleCache⟩ := rfl

theorem outputFrom?_form :
    outputFrom? Json.format (outputForm field) = do
      let pretty ← (field .pretty).bool?
      return ⟨pretty⟩ := rfl

theorem ofJson?_form :
    ofJson? (form field) = do
      let walk ← walkFrom? Json.format (walkForm field)
      let paths ← pathsFrom? Json.format (pathsForm field)
      let output ← outputFrom? Json.format (outputForm field)
      return ⟨walk, paths, output⟩ := rfl

/-- Decoded settings have in each place what its value stands for. -/
theorem put?_of_ofJson? (hdecode : ofJson? (form field) = some changed) (setting : Setting) :
    setting.put? (field setting) changed = some changed := by
  simp only [ofJson?_form, walkFrom?_form, pathsFrom?_form, outputFrom?_form,
    Option.bind_eq_bind, Option.bind_eq_some_iff, Option.pure_def, Option.some.injEq] at hdecode
  obtain ⟨walk, ⟨exclude, hexclude, maxDepth, hdepth, includeTests, htests, keepEmpty, hempty, rfl⟩,
    paths, ⟨workspaceRoot, hworkspace, systemRoot, hsystem, moduleCache, hcache, rfl⟩,
    output, ⟨pretty, hpretty, rfl⟩, rfl⟩ := hdecode
  cases setting with
  | exclude => simp [Setting.put?, hexclude]
  | maxDepth => simp [Setting.put?, hdepth]
  | includeTests => simp [Setting.put?, htests]
  | keepEmpty => simp [Setting.put?, hempty]
  | workspaceRoot => simp [Setting.put?, hworkspace]
  | systemRoot => simp [Setting.put?, hsystem]
  | moduleCache => simp [Setting.put?, hcache]
  | pretty => simp [Setting.put?, hpretty]

/-- When one value of the form is replaced, decoding puts the new value in place. -/
theorem put?_of_update
    (hdecode : ofJson? (form (Function.update (Setting.value settings) setting json)) =
      some changed) : setting.put? json settings = some changed := by
  have hput := put?_of_ofJson? hdecode setting
  rw [Function.update_self] at hput
  obtain ⟨result, hresult⟩ := exists_put? hput settings
  rw [hresult, Option.some.injEq]
  refine eq_of_value fun other => ?_
  by_cases hother : other = setting
  · rw [hother, value_put? hresult, value_put? hput]
  · have hkept := value_put? (put?_of_ofJson? hdecode other)
    rw [Function.update_of_ne hother] at hkept
    rw [value_put?_of_ne hother hresult, hkept]

/-! ## The commands -/

variable {key text : String}

/-- A change of a setting puts the value that the text stands for in its place. -/
theorem changeSetting_ok (hchange : Command.changeSetting settings key text = .ok changed)
    (hlength : (Json.segments key).length = 2) :
    ∃ setting : Setting, Json.segments key = setting.path ∧
      setting.put? (Command.settingValue text) settings = some changed := by
  unfold Command.changeSetting at hchange
  rw [canonical_toJson, Json.set] at hchange
  cases hset : (form (Setting.value settings)).setAt (Command.settingValue text)
      (Json.segments key) with
  | error fault => simp [hset] at hchange
  | ok json =>
      obtain ⟨setting, hsetting⟩ := exists_setting_of_setAt hset hlength
      rw [hsetting, setAt_form] at hset
      cases hset
      refine ⟨setting, hsetting, put?_of_update ?_⟩
      rw [hsetting, setAt_form] at hchange
      cases hdecode : ofJson? (form (Function.update (Setting.value settings) setting
          (Command.settingValue text))) with
      | none => simp [hdecode] at hchange
      | some result => simpa [hdecode] using hchange

variable {tree written : FileTree} {path : String}

theorem loadIfPresent_of_save (hsave : settings.save tree path = (written, .ok ())) :
    loadIfPresent written path = .ok settings := by
  obtain ⟨text, -, hwrite⟩ := save_ok hsave
  rw [loadIfPresent, FileTree.exists?_of_read? (FileTree.read?_writeDeep hwrite), if_pos rfl,
    load_of_save hsave]

/-- A setting is shown as its value in the settings file. -/
theorem runGet_eq (hload : loadIfPresent tree path = .ok settings)
    (hkey : Json.segments key = setting.path) :
    Command.runGet tree path key =
      (tree, .success ((setting.value settings).pretty ++ "\n") []) := by
  unfold Command.runGet
  simp only [hload, canonical_toJson, Json.get?, hkey, getAt?_form]

/-- A run that changes a setting ends in one of three ways: with the changed settings in the
file; without a text for them, and then nothing has been written; or because the text has not
been written. -/
theorem runSet_cases {ending : Ending} (hload : loadIfPresent tree path = .ok settings)
    (hrun : Command.runSet tree path key text = (written, ending)) :
    (∃ changed lines, ending = .success "" lines ∧
      Command.changeSetting settings key text = .ok changed ∧
      changed.save tree path = (written, .ok ())) ∨
    (∃ failure, ending = .failure failure ∧ written = tree) ∨
    (∃ changed toml, ending = .failure (.fault .io) ∧
      Command.changeSetting settings key text = .ok changed ∧ changed.toToml = .ok toml ∧
      tree.writeDeep path toml = (written, false)) := by
  unfold Command.runSet at hrun
  simp only [hload] at hrun
  cases hchange : Command.changeSetting settings key text with
  | error failure =>
      simp only [hchange, Prod.mk.injEq] at hrun
      exact .inr (.inl ⟨failure, hrun.2.symm, hrun.1.symm⟩)
  | ok changed =>
      simp only [hchange] at hrun
      cases hsave : changed.save tree path with
      | mk after outcome =>
          simp only [hsave] at hrun
          cases outcome with
          | ok _ =>
              simp only [Prod.mk.injEq] at hrun
              obtain ⟨rfl, rfl⟩ := hrun
              exact .inl ⟨changed, _, rfl, rfl, hsave⟩
          | error fault =>
              simp only [Prod.mk.injEq] at hrun
              obtain ⟨rfl, rfl⟩ := hrun
              rcases save_error hsave with ⟨-, htree⟩ | ⟨rfl, toml, htoml, hwrite⟩
              · exact .inr (.inl ⟨_, rfl, htree⟩)
              · exact .inr (.inr ⟨changed, toml, rfl, rfl, htoml, hwrite⟩)

/-- Changing a setting is all or nothing.  If it succeeds under a key with a section and a field,
the file holds the settings from before with the value that the text stands for in this one
place, and showing the setting prints this value.  If it fails, the files are as before, unless
the text of the changed settings could not be written. -/
theorem runSet_frame (hload : loadIfPresent tree path = .ok settings) (key text : String) :
    match Command.runSet tree path key text with
    | (written, .success _ _) =>
        (Json.segments key).length = 2 →
          ∃ (setting : Setting) (changed : Settings), Json.segments key = setting.path ∧
            setting.put? (Command.settingValue text) settings = some changed ∧
            load written path = .ok changed ∧
            Command.runGet written path key =
              (written, .success ((Command.settingValue text).pretty ++ "\n") [])
    | (written, ending) =>
        written = tree ∨
          ∃ changed toml, ending = .failure (.fault .io) ∧
            Command.changeSetting settings key text = .ok changed ∧ changed.toToml = .ok toml ∧
            tree.writeDeep path toml = (written, false) := by
  cases hrun : Command.runSet tree path key text with
  | mk written ending =>
      rcases runSet_cases hload hrun with ⟨changed, lines, rfl, hchange, hsave⟩ |
        ⟨failure, rfl, htree⟩ | ⟨changed, toml, rfl, hfailed⟩
      · intro hlength
        obtain ⟨setting, hkey, hput⟩ := changeSetting_ok hchange hlength
        have hget := runGet_eq (loadIfPresent_of_save hsave) hkey
        rw [value_put? hput] at hget
        exact ⟨setting, changed, hkey, hput, load_of_save hsave, hget⟩
      · exact .inl htree
      · exact .inr ⟨changed, toml, rfl, hfailed⟩

/-- Without a settings file, a depth limit is set on top of the defaults. -/
theorem runSet_frame_maxDepth :
    ∃ written : FileTree,
      loadIfPresent {} "/s.toml" = .ok {} ∧
      Command.runSet {} "/s.toml" "walk.max_depth" "5" =
        (written, .success "" ["Updated walk.max_depth and saved to /s.toml"]) ∧
      load written "/s.toml" = .ok { walk := { maxDepth := some 5 } } ∧
      Command.runGet written "/s.toml" "walk.max_depth" = (written, .success "5\n" []) := by
  have hload : loadIfPresent {} "/s.toml" = .ok {} := by
    have habsent : FileTree.exists? {} "/s.toml" = false := by decide +kernel
    rw [loadIfPresent, habsent]
    rfl
  have hending : (Command.runSet {} "/s.toml" "walk.max_depth" "5").2 =
      .success "" ["Updated walk.max_depth and saved to /s.toml"] := by decide +kernel
  have hlimit : Setting.maxDepth.put? (Command.settingValue "5") {} =
      some { walk := { maxDepth := some 5 } } := by decide +kernel
  have hpretty : (Command.settingValue "5").pretty = "5" := by decide +kernel
  have hframe := runSet_frame hload "walk.max_depth" "5"
  cases hrun : Command.runSet {} "/s.toml" "walk.max_depth" "5" with
  | mk written ending =>
      obtain rfl : ending = _ := by simpa [hrun] using hending
      simp only [hrun] at hframe
      obtain ⟨setting, changed, hkey, hput, hloaded, hget⟩ := hframe (by decide +kernel)
      have hsegments : Json.segments "walk.max_depth" = ["walk", "max_depth"] := by decide +kernel
      obtain rfl : setting = .maxDepth := by
        rw [hsegments] at hkey
        cases setting <;> first | rfl | exact absurd hkey (by decide)
      obtain rfl := Option.some.inj (hlimit.symm.trans hput)
      rw [hpretty] at hget
      exact ⟨written, hload, rfl, hloaded, hget⟩

end Settings

end GoAtlas
