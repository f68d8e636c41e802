import GoAtlas.Proofs.Walk.Range

/-!
# Collecting a place

What `Walk.collectFiles` gives, one aspect at a time: which places and paths are
known afterwards, whether it succeeds, which imports it finds, and which files it
keeps.  The last section puts this in terms of `Codebase.Contributes`, which is how
the rest of the theory speaks of a place that has been collected.
-/

namespace GoAtlas

/-! ## The files of a world -/

namespace World

variable {φ : Type}

/-- What is known of a file in the module of a package. -/
def file? (world : World φ) (package fileName : String) : Option φ :=
  (world.modules.get? package).bind fun module => module.files.get? fileName

/-- Storing a file changes what is known of that file only. -/
theorem file?_addFile (world : World φ) (package fileName : String) (fullName? : Option String)
    (file : φ) (package' fileName' : String) :
    (world.addFile package fileName fullName? file).file? package' fileName' =
      if package' = package ∧ fileName' = fileName then some file
      else world.file? package' fileName' := by
  unfold file? addFile
  rw [Table.get?_insert]
  by_cases hpackage : package' = package
  · subst hpackage
    rw [if_pos rfl, Option.bind_some, Table.get?_insert]
    by_cases hname : fileName' = fileName
    · simp [hname]
    · rw [if_neg hname, if_neg (fun h => hname h.2)]
      cases world.modules.get? package' with
      | none => rfl
      | some module => rfl
  · rw [if_neg hpackage, if_neg (fun h => hpackage h.1)]

end World

/-! ## Collecting files -/

namespace Walk

variable {base : Codebase} {options : WalkOptions}

@[simp] theorem store_visited (walk : Walk) (package fileName : String) (file : FileModel) :
    (walk.store base options package fileName file).visited = walk.visited := by
  unfold store
  split <;> rfl

@[simp] theorem store_order (walk : Walk) (package fileName : String) (file : FileModel) :
    (walk.store base options package fileName file).order = walk.order := by
  unfold store
  split <;> rfl

@[simp] theorem store_diagnostics (walk : Walk) (package fileName : String) (file : FileModel) :
    (walk.store base options package fileName file).diagnostics = walk.diagnostics := by
  unfold store
  split <;> rfl

/-- The walk after a file has been collected. -/
def keep (walk : Walk) (base : Codebase) (options : WalkOptions) (package fileName : String)
    (collected : Collected) : Walk :=
  store { walk with diagnostics := walk.diagnostics ++ collected.diagnostics } base options package
    fileName collected.file

@[simp] theorem keep_visited (walk : Walk) (package fileName : String) (collected : Collected) :
    (walk.keep base options package fileName collected).visited = walk.visited :=
  store_visited _ _ _ _

@[simp] theorem keep_order (walk : Walk) (package fileName : String) (collected : Collected) :
    (walk.keep base options package fileName collected).order = walk.order :=
  store_order _ _ _ _

@[simp] theorem keep_diagnostics (walk : Walk) (package fileName : String)
    (collected : Collected) :
    (walk.keep base options package fileName collected).diagnostics =
      walk.diagnostics ++ collected.diagnostics :=
  store_diagnostics _ _ _ _

/-- What each collected file preserves is preserved by collecting files. -/
theorem collectFiles_induction {motive : Walk → Prop} {files : List (String × String × GoFile)}
    (hkeep : ∀ walk package fileName file collected, (package, fileName, file) ∈ files →
      file.collect fileName = .ok collected → motive walk →
        motive (walk.keep base options package fileName collected))
    {walk : Walk} (hwalk : motive walk) (needed : Table Import) :
    motive (collectFiles base options walk needed files).2 := by
  induction files generalizing walk needed with
  | nil => exact hwalk
  | cons source rest ih =>
      obtain ⟨package, fileName, file⟩ := source
      simp only [collectFiles]
      cases hcollect : file.collect fileName with
      | error fault => exact hwalk
      | ok collected =>
          have hrest := hkeep walk package fileName file collected (List.mem_cons_self ..) hcollect
            hwalk
          exact ih (fun _ _ _ _ _ hmem => hkeep _ _ _ _ _ (List.mem_cons_of_mem _ hmem)) hrest _

theorem collectFiles_visited (walk : Walk) (needed : Table Import)
    (files : List (String × String × GoFile)) :
    (collectFiles base options walk needed files).2.visited = walk.visited := by
  refine collectFiles_induction (motive := fun after => after.visited = walk.visited) ?_ rfl needed
  intro after package fileName _ collected _ _ hafter
  rw [keep_visited, hafter]

theorem collectFiles_order (walk : Walk) (needed : Table Import)
    (files : List (String × String × GoFile)) :
    (collectFiles base options walk needed files).2.order = walk.order := by
  refine collectFiles_induction (motive := fun after => after.order = walk.order) ?_ rfl needed
  intro after package fileName _ collected _ _ hafter
  rw [keep_order, hafter]

theorem collectFiles_diagnostics (walk : Walk) (needed : Table Import)
    (files : List (String × String × GoFile)) :
    walk.diagnostics <+: (collectFiles base options walk needed files).2.diagnostics := by
  refine collectFiles_induction (motive := fun after => walk.diagnostics <+: after.diagnostics) ?_
    List.prefix_rfl needed
  intro after package fileName _ collected _ _ hafter
  rw [keep_diagnostics]
  exact hafter.trans (List.prefix_append _ _)

/-- Collecting succeeds from the first file on. -/
theorem collectFiles_cons_of_ok {walk : Walk} {needed imports : Table Import}
    {package fileName : String} {file : GoFile} {rest : List (String × String × GoFile)}
    (hok : (collectFiles base options walk needed ((package, fileName, file) :: rest)).1 =
      .ok imports) :
    ∃ collected, file.collect fileName = .ok collected ∧
      collectFiles base options walk needed ((package, fileName, file) :: rest) =
        collectFiles base options (walk.keep base options package fileName collected)
          (mergeNeeded needed collected.file.imports) rest := by
  simp only [collectFiles] at hok ⊢
  cases hcollect : file.collect fileName with
  | error fault =>
      rw [hcollect] at hok
      cases hok
  | ok collected => exact ⟨collected, rfl, rfl⟩

/-- Files are collected up to the first that cannot be. -/
theorem collectFiles_isOk_iff (walk : Walk) (needed : Table Import)
    (files : List (String × String × GoFile)) :
    (∃ imports, (collectFiles base options walk needed files).1 = .ok imports) ↔
      ∀ package fileName file, (package, fileName, file) ∈ files →
        ∃ collected, file.collect fileName = .ok collected := by
  induction files generalizing walk needed with
  | nil => simp [collectFiles]
  | cons file rest ih =>
      obtain ⟨package, fileName, file⟩ := file
      simp only [collectFiles]
      cases hcollect : file.collect fileName with
      | error fault =>
          simp only [reduceCtorEq, exists_false, false_iff]
          intro hall
          obtain ⟨collected, hok⟩ := hall package fileName file (List.mem_cons_self ..)
          rw [hcollect] at hok
          cases hok
      | ok collected =>
          simp only [ih, List.mem_cons]
          constructor
          · rintro hrest package' fileName' file' (heq | hmem)
            · cases heq
              exact ⟨collected, hcollect⟩
            · exact hrest _ _ _ hmem
          · intro hall package' fileName' file' hmem
            exact hall _ _ _ (Or.inr hmem)

/-- A place is readable exactly if collecting its files succeeds. -/
theorem readable_iff {key : String} {packages : Table Package} (walk : Walk)
    (needed : Table Import) (hpackages : base.packages? key = some packages) :
    base.Readable options key ↔
      ∃ imports, (collectFiles base options walk needed (options.files packages)).1 =
        .ok imports := by
  rw [collectFiles_isOk_iff]
  constructor
  · rintro ⟨packages', hsome, hall⟩
    cases hpackages.symm.trans hsome
    exact hall
  · exact fun hall => ⟨packages, hpackages, hall⟩

/-- The files known after collecting were known before or have just been collected. -/
theorem collectFiles_file? {walk : Walk} {needed : Table Import}
    {files : List (String × String × GoFile)} {package fileName : String} {model : FileModel}
    (hmodel : (collectFiles base options walk needed files).2.world.file? package fileName =
      some model) :
    walk.world.file? package fileName = some model ∨
      ∃ file collected, (package, fileName, file) ∈ files ∧
        file.collect fileName = .ok collected ∧ collected.file = model := by
  revert hmodel
  refine collectFiles_induction (motive := fun after =>
    after.world.file? package fileName = some model → _) ?_ Or.inl needed
  intro after package' fileName' file collected hfile hcollect hafter hmodel
  unfold keep store at hmodel
  split at hmodel
  · exact hafter hmodel
  · rw [World.file?_addFile] at hmodel
    split at hmodel
    · rename_i hsame
      obtain ⟨rfl, rfl⟩ := hsame
      exact Or.inr ⟨file, collected, hfile, hcollect, Option.some.inj hmodel⟩
    · exact hafter hmodel

/-! ## Needed imports -/

/-- Of the imports of a file only the needed ones are taken over, and only under import
paths that are not known yet. -/
theorem get?_mergeNeeded (needed : Table Import) (imports : ImportTable) (fullName : String) :
    (mergeNeeded needed imports).get? fullName =
      (needed.get? fullName).or
        ((imports.values.filter (·.needed)).find? (·.fullName == fullName)) := by
  unfold mergeNeeded
  -- Every step keeps what is known, so the first entry under a path stays.
  generalize imports.values.filter (·.needed) = entries
  induction entries generalizing needed with
  | nil => simp
  | cons entry rest ih =>
      rw [List.foldl_cons, ih, List.find?_cons]
      by_cases hknown : needed.contains entry.fullName = true
      · rw [if_pos hknown]
        by_cases hname : entry.fullName = fullName
        · obtain ⟨known, hget⟩ := Table.contains_iff.mp hknown
          rw [hname] at hget
          simp [hget]
        · rw [beq_eq_false_iff_ne.mpr hname]
      · rw [if_neg hknown, Table.get?_insert]
        by_cases hname : fullName = entry.fullName
        · subst hname
          have hnone : needed.get? entry.fullName = none := by
            simpa [Table.contains] using hknown
          simp [hnone]
        · rw [if_neg hname, beq_eq_false_iff_ne.mpr (Ne.symm hname)]

/-- The imports that a file needs, none if it cannot be collected. -/
def neededBy (source : String × String × GoFile) : List Import :=
  match source.2.2.collect source.2.1 with
  | .ok collected => collected.file.imports.values.filter (·.needed)
  | .error _ => []

theorem mem_neededBy {package fileName : String} {file : GoFile} {entry : Import} :
    entry ∈ neededBy (package, fileName, file) ↔
      ∃ collected, file.collect fileName = .ok collected ∧
        entry ∈ collected.file.imports.values ∧ entry.needed = true := by
  unfold neededBy
  cases file.collect fileName with
  | error fault => simp
  | ok collected => simp

/-- The import paths needed at a place are those of the imports that its files need. -/
theorem needs_iff {key fullName : String} {packages : Table Package}
    (hpackages : base.packages? key = some packages) :
    base.Needs options key fullName ↔
      ∃ entry ∈ (options.files packages).flatMap neededBy, entry.fullName = fullName := by
  constructor
  · rintro ⟨package, fileName, collected, ⟨packages', file, hsome, hfile, hcollect⟩, entry, hentry,
      hneeded, hname⟩
    cases hpackages.symm.trans hsome
    exact ⟨entry, List.mem_flatMap.mpr ⟨_, hfile,
      mem_neededBy.mpr ⟨collected, hcollect, hentry, hneeded⟩⟩, hname⟩
  · rintro ⟨entry, hmem, hname⟩
    obtain ⟨⟨package, fileName, file⟩, hfile, hneeded⟩ := List.mem_flatMap.mp hmem
    obtain ⟨collected, hcollect, hentry, hneeded⟩ := mem_neededBy.mp hneeded
    exact ⟨package, fileName, collected, ⟨packages, file, hpackages, hfile, hcollect⟩, entry,
      hentry, hneeded, hname⟩

/-- The imports found by collecting are the first under each import path. -/
theorem get?_collectFiles {walk : Walk} {needed imports : Table Import}
    {files : List (String × String × GoFile)}
    (hok : (collectFiles base options walk needed files).1 = .ok imports) (fullName : String) :
    imports.get? fullName =
      (needed.get? fullName).or ((files.flatMap neededBy).find? (·.fullName == fullName)) := by
  induction files generalizing walk needed with
  | nil =>
      cases hok
      simp
  | cons source rest ih =>
      obtain ⟨package, fileName, file⟩ := source
      obtain ⟨collected, hcollect, hrest⟩ := collectFiles_cons_of_ok hok
      rw [hrest] at hok
      rw [ih hok, get?_mergeNeeded, List.flatMap_cons, List.find?_append, Option.or_assoc]
      simp [neededBy, hcollect]

/-- The imports found at a place are named by the import paths needed there. -/
theorem collectFiles_needs {walk : Walk} {key : String} {packages : Table Package}
    {imports : Table Import} (hpackages : base.packages? key = some packages)
    (hok : (collectFiles base options walk Table.empty (options.files packages)).1 = .ok imports)
    (fullName : String) :
    (∃ entry ∈ imports.values, entry.fullName = fullName) ↔
      base.Needs options key fullName := by
  have hget : ∀ name, imports.get? name =
      ((options.files packages).flatMap neededBy).find? (·.fullName == name) := by
    intro name
    rw [get?_collectFiles hok, Table.get?_empty, Option.none_or]
  rw [needs_iff hpackages]
  constructor
  · rintro ⟨entry, hentry, hfullName⟩
    obtain ⟨name, hname⟩ := Table.mem_values.mp hentry
    rw [hget] at hname
    exact ⟨entry, List.mem_of_find?_eq_some hname, hfullName⟩
  · rintro ⟨entry, hmem, rfl⟩
    cases hfind : imports.get? entry.fullName with
    | none =>
        rw [hget, List.find?_eq_none] at hfind
        exact absurd (by simp) (hfind entry hmem)
    | some found =>
        refine ⟨found, Table.mem_values_of_get? hfind, ?_⟩
        rw [hget] at hfind
        simpa using List.find?_some hfind

end Walk

end GoAtlas
