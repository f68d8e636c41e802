import GoAtlas.Proofs.Files.Writing
import GoAtlas.Proofs.Toml.Reading
import GoAtlas.Settings.File

/-!
# Saved settings are loaded again

The TOML text of settings has three sections, each a list of lines with a key and a value
(`Line`).  A line is left out when there is nothing to be set, and then reading leaves the
field unset, so settings are read back from their text (`ofToml?_toToml`) and from the file
that they are saved in (`load_of_save`).

The only settings without a text are those with a depth limit that TOML has no integer for
(`toToml_error_iff`).
-/

namespace GoAtlas.Settings

open Toml (Line Writes Reads Node)

variable {settings : Settings} {text : String} {key : String} {value : List Char} {toml : Toml}

/-! ## Lists of texts -/

/-- If every text has a line, there are no more texts than characters. -/
theorem length_le_flatMap {α β : Type} {f : α → List β} (hf : ∀ a, f a ≠ []) (items : List α) :
    items.length ≤ (items.flatMap f).length := by
  induction items with
  | nil => exact Nat.le_refl _
  | cons item items ih =>
      have hitem : 0 < (f item).length := List.length_pos_iff.mpr (hf item)
      simp only [List.length_cons, List.flatMap_cons, List.length_append]
      omega

theorem readValue_list {depth : Nat} {items : List Toml} {body rest : List Char}
    (hitems : Toml.readItems (Toml.readValue depth) (body.length + 1) body = some (items, rest)) :
    Toml.readValue (depth + 1) ('[' :: body) = some (.arr items, rest) := by
  simp [Toml.readValue, hitems]

/-- Brackets around a body make a list if the items of the body are read. -/
theorem writes_brackets (body : List Char) {items : List Toml} (hreturn : '\r' ∉ body)
    (hread : ∀ (depth count : Nat) (rest : List Char), body.length < count →
      Toml.readItems (Toml.readValue depth) count (body ++ ']' :: rest) = some (items, rest)) :
    Writes ('[' :: body ++ [']']) (.arr items) := by
  refine ⟨by simp [Toml.Quoted.isSpace], by simp, by simp [hreturn], fun rest => ?_⟩
  have hlength : body.length < (body ++ ']' :: '\n' :: rest).length + 1 := by
    simp only [List.length_append]
    omega
  simp only [List.cons_append, List.append_assoc, List.nil_append]
  exact readValue_list (hread _ _ ('\n' :: rest) hlength)

/-- The layout of a list depends on how many texts it has, but each layout is read back. -/
theorem writes_listText (texts : List String) :
    Writes (listText texts) (.arr (texts.map .str)) := by
  match texts with
  | [] =>
      refine writes_brackets [] (by simp) fun depth count rest hcount => ?_
      obtain ⟨count, rfl⟩ := Nat.exists_eq_add_one_of_ne_zero (Nat.ne_zero_of_lt hcount)
      simp [Toml.readItems, Toml.skipFiller, Toml.Quoted.isSpace]
  | [text] =>
      refine writes_brackets (Toml.Quoted.write text.toList)
        (Toml.Quoted.not_mem_write _) fun depth count rest hcount => ?_
      obtain ⟨count, rfl⟩ := Nat.exists_eq_add_one_of_ne_zero (Nat.ne_zero_of_lt hcount)
      obtain ⟨quote, tail, hwrite, hquote⟩ := Toml.Quoted.write_head text.toList
      have hclose : quote ≠ ']' := by rcases hquote with rfl | rfl <;> decide
      have hfiller := Toml.skipFiller_write text.toList (']' :: rest)
      have hitem : Toml.readValue depth (Toml.Quoted.write text.toList ++ ']' :: rest) =
          some (.str (String.ofList text.toList), ']' :: rest) :=
        Toml.readValue_write (by simp) (by simp) text.toList
      rw [hwrite, List.cons_append] at hfiller hitem ⊢
      rw [Toml.readItems_succ hfiller hclose hitem,
        Toml.skipFiller_cons rfl (by decide) (by decide)]
      simp
  | first :: second :: texts =>
      have hlist : listText (first :: second :: texts) = '[' :: ('\n' ::
          (first :: second :: texts).flatMap fun text => "    ".toList ++
            Toml.Quoted.write text.toList ++ ",\n".toList) ++ [']'] := rfl
      rw [hlist]
      refine writes_brackets _ ?_ fun depth count rest hcount => ?_
      · simp [Toml.Quoted.not_mem_write]
      · have hlines := length_le_flatMap (f := fun text : String => "    ".toList ++
          Toml.Quoted.write text.toList ++ ",\n".toList) (by simp) (first :: second :: texts)
        exact Toml.readItems_lines _ (Nat.lt_of_le_of_lt (Nat.le_succ_of_le hlines) hcount)

/-! ## The lines of a section -/

/-- The line of a field that may be missing. -/
def optionalLines {α : Type} (key : String) (value : α → List Char) (toml : α → Toml) :
    Option α → List Line
  | none => []
  | some field => [⟨key, value field, toml field⟩]

/-- The line of a boolean. -/
def boolLine (key : String) (b : Bool) : Line := ⟨key, boolText b, .bool b⟩

/-- The line of a text that may be missing. -/
def pathLines (key : String) (path : Option String) : List Line :=
  optionalLines key (fun text => Toml.Quoted.write text.toList) .str path

/-- The lines of settings for walks. -/
def walkLines (walk : WalkSettings) : List Line :=
  ⟨"exclude", listText walk.exclude, .arr (walk.exclude.map .str)⟩ ::
    (optionalLines "max_depth" (Nat.toDigits 10) (fun n => .int n) walk.maxDepth ++
      [boolLine "include_tests" walk.includeTests, boolLine "keep_empty_files" walk.keepEmpty])

/-- The lines of settings for paths. -/
def pathsLines (paths : PathSettings) : List Line :=
  pathLines "workspace_root" paths.workspaceRoot ++ pathLines "system_root" paths.systemRoot ++
    pathLines "module_cache" paths.moduleCache

/-- The lines of settings for output. -/
def outputLines (output : OutputSettings) : List Line :=
  [boolLine "pretty" output.pretty]

theorem pairLine_eq (key : String) (value : List Char) (toml : Toml) :
    pairLine key value = Line.chars ⟨key, value, toml⟩ := by
  simp only [pairLine, Line.chars]

theorem optionalLine_eq {α : Type} (key : String) (encode : α → List Char) (decode : α → Toml)
    (field : Option α) :
    optionalLine key (field.map encode) =
      (optionalLines key encode decode field).flatMap Line.chars := by
  cases field with
  | none => rfl
  | some value =>
      simp only [optionalLines, optionalLine, Option.map_some, List.flatMap_cons,
        List.flatMap_nil, List.append_nil]
      exact pairLine_eq _ _ _

theorem pairLine_boolText (b : Bool) : pairLine key (boolText b) = (boolLine key b).chars :=
  pairLine_eq _ _ _

theorem optionalLine_quoted (path : Option String) :
    optionalLine key (quoted? path) = (pathLines key path).flatMap Line.chars :=
  optionalLine_eq _ _ Toml.str path

/-- A header and the lines under it. -/
def sectionText (header : String) (lines : List Line) : List Char :=
  '[' :: (header.toList ++ ']' :: '\n' :: lines.flatMap Line.chars)

theorem sectionText_eq {header : String} (start : List Char) {lines : List Line}
    (hstart : start = '[' :: (header.toList ++ [']', '\n'])) :
    sectionText header lines = start ++ lines.flatMap Line.chars := by
  simp only [sectionText, hstart, List.cons_append, List.append_assoc, List.nil_append]

theorem walkText_eq (walk : WalkSettings) :
    walkText walk = sectionText "walk" (walkLines walk) := by
  have hexclude := pairLine_eq "exclude" (listText walk.exclude)
    (.arr (walk.exclude.map .str))
  have hdepth := optionalLine_eq "max_depth" (Nat.toDigits 10) (fun n => Toml.int n)
    walk.maxDepth
  rw [sectionText_eq "[walk]\n".toList (by decide)]
  unfold walkText
  simp only [walkLines, hexclude, hdepth, pairLine_boolText, List.flatMap_cons,
    List.flatMap_append, List.flatMap_nil, List.append_nil, List.append_assoc]

theorem pathsText_eq (paths : PathSettings) :
    pathsText paths = sectionText "paths" (pathsLines paths) := by
  rw [sectionText_eq "[paths]\n".toList (by decide)]
  unfold pathsText
  simp only [pathsLines, optionalLine_quoted, List.flatMap_append, List.append_assoc]

theorem outputText_eq (output : OutputSettings) :
    outputText output = sectionText "output" (outputLines output) := by
  rw [sectionText_eq "[output]\n".toList (by decide)]
  unfold outputText
  simp only [outputLines, pairLine_boolText, List.flatMap_cons, List.flatMap_nil,
    List.append_nil]

/-! ## Reading the lines -/

theorem writes_boolText (b : Bool) : Writes (boolText b) (.bool b) := by
  cases b with
  | false => exact Toml.writes_false
  | true => exact Toml.writes_true

theorem boolLine_isRead (hkey : Toml.IsPlainKey key) (b : Bool) : (boolLine key b).IsRead :=
  ⟨hkey, writes_boolText b⟩

theorem pathLines_isRead (hkey : Toml.IsPlainKey key) (path : Option String) :
    ∀ line ∈ pathLines key path, line.IsRead := by
  cases path with
  | none => simp [pathLines, optionalLines]
  | some text =>
      have hwrites := Toml.writes_string text.toList
      rw [String.ofList_toList] at hwrites
      simpa [pathLines, optionalLines] using ⟨hkey, hwrites⟩

/-- The lines for walks are read if the depth limit is an integer of TOML. -/
theorem walkLines_isRead {walk : WalkSettings}
    (hdepth : ∀ n ∈ walk.maxDepth, n < signedLimit) : ∀ line ∈ walkLines walk, line.IsRead := by
  have hlimit : ∀ line ∈ optionalLines "max_depth" (Nat.toDigits 10) (fun n => Toml.int n)
      walk.maxDepth, line.IsRead := by
    cases hcase : walk.maxDepth with
    | none => simp [optionalLines]
    | some n =>
        have hwrites := Toml.writes_natural (hdepth n hcase)
        have hkey : Toml.IsPlainKey "max_depth" := by decide
        simpa [optionalLines] using ⟨hkey, hwrites⟩
  simp only [walkLines, List.mem_cons, List.mem_append, List.not_mem_nil, or_false]
  rintro line (rfl | hline | rfl | rfl)
  · have hkey : Toml.IsPlainKey "exclude" := by decide
    exact ⟨hkey, writes_listText walk.exclude⟩
  · exact hlimit line hline
  · exact boolLine_isRead (by decide) _
  · exact boolLine_isRead (by decide) _

theorem pathsLines_isRead (paths : PathSettings) : ∀ line ∈ pathsLines paths, line.IsRead := by
  simp only [pathsLines, List.mem_append]
  rintro line ((hline | hline) | hline)
  all_goals exact pathLines_isRead (by decide) _ line hline

theorem outputLines_isRead (output : OutputSettings) :
    ∀ line ∈ outputLines output, line.IsRead := by
  simpa [outputLines] using boolLine_isRead (by decide) output.pretty

theorem walkLines_nodup (walk : WalkSettings) : ((walkLines walk).map Line.key).Nodup := by
  cases hcase : walk.maxDepth <;> simp [walkLines, optionalLines, boolLine, hcase]

theorem pathsLines_nodup (paths : PathSettings) : ((pathsLines paths).map Line.key).Nodup := by
  obtain ⟨workspaceRoot, systemRoot, moduleCache⟩ := paths
  cases workspaceRoot <;> cases systemRoot <;> cases moduleCache <;>
    simp [pathsLines, pathLines, optionalLines]

theorem outputLines_nodup (output : OutputSettings) :
    ((outputLines output).map Line.key).Nodup := by
  simp [outputLines]

/-- A line that is read holds no carriage return. -/
theorem not_mem_chars {line : Line} (hline : line.IsRead) : '\r' ∉ line.chars := by
  have hkey : '\r' ∉ line.key.toList := fun hmem =>
    absurd (hline.key.2 _ hmem) (by decide)
  simp [Line.chars, hkey, hline.value.noReturn]

theorem not_mem_sectionText {header : String} {lines : List Line} (hkey : Toml.IsPlainKey header)
    (hlines : ∀ line ∈ lines, line.IsRead) : '\r' ∉ sectionText header lines := by
  have hheader : '\r' ∉ header.toList := fun hmem => absurd (hkey.2 _ hmem) (by decide)
  simp only [sectionText, List.mem_cons, List.mem_append, List.mem_flatMap, not_or, not_exists,
    not_and]
  exact ⟨by decide, hheader, by decide, by decide,
    fun line hline => not_mem_chars (hlines line hline)⟩

/-- A section is read into a table of its own. -/
theorem reads_sectionText (draft : Toml.Draft) {header : String} {lines : List Line}
    {rest : List Char} {entries : Toml.Entries} (hkey : Toml.IsPlainKey header)
    (hheader : header ∉ draft.entries.map Prod.fst) (hlines : ∀ line ∈ lines, line.IsRead)
    (hkeys : (lines.map Line.key).Nodup)
    (hreads : Reads ⟨[header], draft.entries ++ [(header, .table .header (lines.map Line.entry))]⟩
      rest entries) : Reads draft (sectionText header lines ++ rest) entries := by
  simpa [sectionText] using Toml.reads_section hkey hheader hlines hkeys hreads

/-! ## The text as a whole -/

/-- What reading the text of settings gives. -/
def tomlEntries (settings : Settings) : Toml.Entries :=
  [("walk", .table .header ((walkLines settings.walk).map Line.entry)),
    ("paths", .table .header ((pathsLines settings.paths).map Line.entry)),
    ("output", .table .header ((outputLines settings.output).map Line.entry))]

/-- The text of settings. -/
def tomlText (settings : Settings) : List Char :=
  walkText settings.walk ++ ['\n'] ++ pathsText settings.paths ++ ['\n'] ++
    outputText settings.output

theorem walkKey : Toml.IsPlainKey "walk" := by decide

theorem pathsKey : Toml.IsPlainKey "paths" := by decide

theorem outputKey : Toml.IsPlainKey "output" := by decide

/-- The sections are read one after the other. -/
theorem reads_tomlText (hdepth : ∀ n ∈ settings.walk.maxDepth, n < signedLimit) :
    Reads {} (tomlText settings) (tomlEntries settings) := by
  have houtput := reads_sectionText ⟨["paths"], (tomlEntries settings).take 2⟩
    outputKey (by simp [tomlEntries]) (outputLines_isRead settings.output)
    (outputLines_nodup settings.output) Toml.reads_nil
  have hpaths := reads_sectionText ⟨["walk"], (tomlEntries settings).take 1⟩
    pathsKey (by simp [tomlEntries]) (pathsLines_isRead settings.paths)
    (pathsLines_nodup settings.paths) (Toml.reads_break houtput)
  have hwalk := reads_sectionText {} walkKey (by simp) (walkLines_isRead hdepth)
    (walkLines_nodup settings.walk) (Toml.reads_break hpaths)
  simpa [tomlText, walkText_eq, pathsText_eq, outputText_eq, tomlEntries] using hwalk

theorem not_mem_tomlText (hdepth : ∀ n ∈ settings.walk.maxDepth, n < signedLimit) :
    '\r' ∉ tomlText settings := by
  have hwalk := not_mem_sectionText walkKey (walkLines_isRead hdepth)
  have hpaths := not_mem_sectionText pathsKey (pathsLines_isRead settings.paths)
  have houtput := not_mem_sectionText outputKey (outputLines_isRead settings.output)
  simp [tomlText, walkText_eq, pathsText_eq, outputText_eq, hwalk, hpaths, houtput]

/-! ## From the entries to the settings -/

/-- A list of lines as a table. -/
def tableOf (lines : List Line) : Toml := .table (lines.map fun line => (line.key, line.toml))

theorem toToml_lines (lines : List Line) :
    (Node.table .header (lines.map Line.entry)).toToml = tableOf lines := by
  have hentries : Toml.entriesToToml (lines.map Line.entry) =
      lines.map fun line => (line.key, line.toml) := by
    induction lines with
    | nil => rfl
    | cons line lines ih =>
        simp only [List.map_cons, Line.entry, Toml.entriesToToml, Node.toToml] at ih ⊢
        rw [ih]
  simp [Node.toToml, tableOf, hentries]

/-- A list of texts is read from a list of values that are texts. -/
theorem DataFormat.texts?_eq_some {α : Type} {format : DataFormat α} {encode : String → α}
    {value : α} {texts : List String} (hitems : format.items? value = some (texts.map encode))
    (htext : ∀ text, format.text? (encode text) = some text) :
    format.texts? value = some texts := by
  have hpure : format.text? ∘ encode = fun text => pure (id text) := funext htext
  rw [DataFormat.texts?, hitems, Option.bind_some, List.mapM_map, hpure, List.mapM_pure,
    List.map_id]
  rfl

theorem texts?_strings (texts : List String) :
    Toml.format.texts? (.arr (texts.map .str)) = some texts :=
  DataFormat.texts?_eq_some rfl fun _ => rfl

theorem walkFrom?_lines (walk : WalkSettings) :
    walkFrom? Toml.format (tableOf (walkLines walk)) = some walk := by
  obtain ⟨exclude, maxDepth, includeTests, keepEmpty⟩ := walk
  have htexts := texts?_strings exclude
  -- A depth limit that is not set has no line, and then reading leaves it unset.
  cases maxDepth with
  | none =>
      show (Toml.format.texts? (.arr (exclude.map .str))).bind _ = _
      rw [htexts]
      rfl
  | some n =>
      show (Toml.format.texts? (.arr (exclude.map .str))).bind _ = _
      rw [htexts]
      rfl

theorem pathsFrom?_lines (paths : PathSettings) :
    pathsFrom? Toml.format (tableOf (pathsLines paths)) = some paths := by
  obtain ⟨workspaceRoot, systemRoot, moduleCache⟩ := paths
  cases workspaceRoot <;> cases systemRoot <;> cases moduleCache <;> rfl

theorem outputFrom?_lines (output : OutputSettings) :
    outputFrom? Toml.format (tableOf (outputLines output)) = some output := by
  obtain ⟨pretty⟩ := output
  rfl

theorem from?_tomlEntries (settings : Settings) :
    from? Toml.format (.table (Toml.entriesToToml (tomlEntries settings))) = some settings := by
  have hentries : Toml.entriesToToml (tomlEntries settings) =
      [("walk", tableOf (walkLines settings.walk)), ("paths", tableOf (pathsLines settings.paths)),
        ("output", tableOf (outputLines settings.output))] := by
    simp only [tomlEntries, Toml.entriesToToml, toToml_lines]
  rw [hentries]
  show (walkFrom? Toml.format (tableOf (walkLines settings.walk))).bind _ = _
  rw [walkFrom?_lines, Option.bind_some]
  show (pathsFrom? Toml.format (tableOf (pathsLines settings.paths))).bind _ = _
  rw [pathsFrom?_lines, Option.bind_some]
  show (outputFrom? Toml.format (tableOf (outputLines settings.output))).bind _ = _
  rw [outputFrom?_lines]
  rfl

/-! ## Text and file -/

/-- Only a depth limit that is no integer of TOML keeps settings from being written. -/
theorem toToml_error_iff {fault : Fault} :
    settings.toToml = .error fault ↔
      fault = .settings ∧ ∃ n, settings.walk.maxDepth = some n ∧ signedLimit ≤ n := by
  unfold toToml
  cases hdepth : settings.walk.maxDepth with
  | none => simp
  | some n =>
      by_cases hlimit : n < signedLimit
      · simp [hlimit]
      · simp [hlimit, Nat.not_lt.mp hlimit, eq_comm]

theorem toToml_ok (htext : settings.toToml = .ok text) :
    text = String.ofList (tomlText settings) ∧ ∀ n ∈ settings.walk.maxDepth, n < signedLimit := by
  unfold toToml at htext
  split at htext
  case isTrue hall =>
    exact ⟨(Except.ok.inj htext).symm, by simpa [Option.all_eq_true] using hall⟩
  case isFalse => cases htext

/-- The text of settings holds these settings. -/
theorem ofToml?_toToml (htext : settings.toToml = .ok text) : ofToml? text = some settings := by
  obtain ⟨rfl, hdepth⟩ := toToml_ok htext
  have hread : Toml.read? (String.ofList (tomlText settings)) =
      some (Toml.entriesToToml (tomlEntries settings)) := by
    have hreturn := not_mem_tomlText hdepth
    have hreads := reads_tomlText hdepth
    have hhead : ∃ body, tomlText settings = '[' :: body := by
      unfold tomlText
      rw [walkText_eq]
      exact ⟨_, rfl⟩
    obtain ⟨body, hbody⟩ := hhead
    rw [hbody] at hreturn hreads ⊢
    exact Toml.read?_of_reads hreturn hreads
  rw [ofToml?, hread, Option.bind_some, from?_tomlEntries]

variable {tree written : FileTree} {path : String}

/-- Settings have been saved if there is a text for them and it has been written. -/
theorem save_ok (hsave : settings.save tree path = (written, .ok ())) :
    ∃ text, settings.toToml = .ok text ∧ tree.writeDeep path text = (written, true) := by
  unfold save at hsave
  cases htext : settings.toToml with
  | error fault => simp [htext] at hsave
  | ok text =>
      simp only [htext, Prod.mk.injEq] at hsave
      obtain ⟨htree, houtcome⟩ := hsave
      cases hdone : (tree.writeDeep path text).2 with
      | false => simp [hdone] at houtcome
      | true => exact ⟨text, rfl, by rw [← htree, ← hdone]⟩

/-- Saving fails without a text, and then nothing is written, or because its text cannot be
written. -/
theorem save_error {fault : Fault} (hsave : settings.save tree path = (written, .error fault)) :
    (settings.toToml = .error fault ∧ written = tree) ∨
      (fault = .io ∧ ∃ text, settings.toToml = .ok text ∧
        tree.writeDeep path text = (written, false)) := by
  unfold save at hsave
  cases htext : settings.toToml with
  | error other =>
      simp only [htext, Prod.mk.injEq, Except.error.injEq] at hsave
      exact .inl ⟨by rw [hsave.2], hsave.1.symm⟩
  | ok text =>
      simp only [htext, Prod.mk.injEq] at hsave
      obtain ⟨htree, houtcome⟩ := hsave
      cases hdone : (tree.writeDeep path text).2 with
      | true => simp [hdone] at houtcome
      | false =>
          simp only [hdone, Bool.false_eq_true, if_false, Except.error.injEq] at houtcome
          exact .inr ⟨houtcome.symm, text, rfl, by rw [← htree, ← hdone]⟩

/-- Settings that have been saved are loaded again. -/
theorem load_of_save (hsave : settings.save tree path = (written, .ok ())) :
    load written path = .ok settings := by
  obtain ⟨text, htext, hwrite⟩ := save_ok hsave
  rw [load, FileTree.read?_writeDeep hwrite]
  simp only [ofToml?_toToml htext]

/-- Settings are saved or there is a reason: a depth limit that TOML has no integer for, and
then nothing is written, or a text that cannot be written.  Once they have been saved, the
same settings are loaded. -/
theorem save_load (settings : Settings) (tree : FileTree) (path : String) :
    match settings.save tree path with
    | (written, .ok ()) => load written path = .ok settings
    | (written, .error fault) =>
        (fault = .settings ∧ written = tree ∧
          ∃ n, settings.walk.maxDepth = some n ∧ 9223372036854775807 < n) ∨
        (fault = .io ∧ ∃ text, settings.toToml = .ok text ∧
          tree.writeDeep path text = (written, false)) := by
  split
  case h_1 written hsave => exact load_of_save hsave
  case h_2 written fault hsave =>
    refine (save_error hsave).imp (fun ⟨htext, htree⟩ => ?_) id
    obtain ⟨hfault, n, hdepth, hlimit⟩ := toToml_error_iff.mp htext
    exact ⟨hfault, htree, n, hdepth, Nat.lt_of_lt_of_le (by decide) hlimit⟩

end GoAtlas.Settings
