import GoAtlas.Proofs.Walk.Requests

/-!
# What a world holds

Files are stored while places are entered, so packages of one name from different places
are merged into a module piece by piece, between visits of other places.  All the same the
world is what one gets by adding up the contents of the visited places in the order of their
visits (`History.world_eq`); what such a sum holds is a matter of worlds alone
(`World.stores_addFiles`).

Together they give `runAll_world`: after runs that end well the world holds exactly the
files that the visited places contribute, as they are collected, in modules under the names of
their packages, and the import path of a module is the first that one of its files tells.
-/

namespace GoAtlas

/-! ## Adding files to a world -/

namespace World

variable {φ : Type} {fullName? : String → Option String} {world : World φ}
  {files : List (String × String × φ)} {package fileName : String} {model : φ}

/-- The world with files added one after another, each given with the name of its package
and its own. -/
def addFiles (fullName? : String → Option String) (world : World φ)
    (files : List (String × String × φ)) : World φ :=
  files.foldl (fun world file =>
    world.addFile file.1 file.2.1 (fullName? file.2.1) file.2.2) world

theorem addFiles_append (files more : List (String × String × φ)) :
    world.addFiles fullName? (files ++ more) =
      (world.addFiles fullName? files).addFiles fullName? more :=
  List.foldl_append

/-- The import paths that the files of a package tell, in order. -/
def toldNames (fullName? : String → Option String) (package : String)
    (files : List (String × String × φ)) : List String :=
  (files.filter fun file => file.1 == package).filterMap fun file => fullName? file.2.1

/-- The first text that is not empty; the empty text if there is none. -/
def firstTold (names : List String) : String :=
  (names.find? fun name => !name.isEmpty).getD ""

theorem firstTold_append (names : List String) (name? : Option String) :
    firstTold (names ++ name?.toList) =
      if (firstTold names).isEmpty then name?.getD "" else firstTold names := by
  unfold firstTold
  rw [List.find?_append]
  cases hfind : names.find? fun name => !name.isEmpty with
  | some name =>
      have hname : name.isEmpty = false := by simpa using List.find?_some hfind
      simp [hname]
  | none =>
      cases name? with
      | none => rfl
      | some name =>
          by_cases hname : name = ""
          · subst hname
            rfl
          · simp [hname]

/-- The world holds the given files and nothing else. -/
structure Stores (fullName? : String → Option String) (files : List (String × String × φ))
    (world : World φ) : Prop where
  listed : ∀ package fileName model, world.file? package fileName = some model →
    (package, fileName, model) ∈ files
  stored : ∀ package fileName model, (package, fileName, model) ∈ files →
    ∃ model, world.file? package fileName = some model
  named : ∀ package module, world.modules.get? package = some module →
    module.name = package ∧ (∃ fileName model, module.files.get? fileName = some model) ∧
      module.fullName = firstTold (toldNames fullName? package files)
  absent : ∀ package, world.modules.get? package = none → ∀ file ∈ files, file.1 ≠ package

theorem stores_empty : Stores fullName? [] ({} : World φ) where
  listed := by
    intro package fileName model hfile
    cases hfile
  stored := by
    intro package fileName model hfile
    cases hfile
  named := by
    intro package module hmodule
    cases hmodule
  absent := by simp

theorem toldNames_append_self (files : List (String × String × φ)) :
    toldNames fullName? package (files ++ [(package, fileName, model)]) =
      toldNames fullName? package files ++ (fullName? fileName).toList := by
  unfold toldNames
  rw [List.filter_append, List.filterMap_append]
  congr 1
  cases hname : fullName? fileName <;> simp [hname]

theorem toldNames_append_other {other : String} (hother : other ≠ package)
    (files : List (String × String × φ)) :
    toldNames fullName? other (files ++ [(package, fileName, model)]) =
      toldNames fullName? other files := by
  have hne : (package == other) = false := beq_eq_false_iff_ne.mpr hother.symm
  simp [toldNames, hne]

/-- The module of a package after one of its files has been added. -/
theorem Stores.named_addFile (hstores : Stores fullName? files world) {module : GoModule φ}
    (hmodule : (world.addFile package fileName (fullName? fileName) model).modules.get? package =
      some module) :
    module.name = package ∧ (∃ fileName model, module.files.get? fileName = some model) ∧
      module.fullName = firstTold
        (toldNames fullName? package (files ++ [(package, fileName, model)])) := by
  rw [toldNames_append_self, firstTold_append]
  simp only [addFile, Table.get?_insert, if_pos, Option.some.injEq] at hmodule
  subst hmodule
  refine ⟨?_, ⟨fileName, model, by simp⟩, ?_⟩
  · cases hbefore : world.modules.get? package with
    | none => rfl
    | some known => exact (hstores.named package known hbefore).1
  · cases hbefore : world.modules.get? package with
    | none =>
        -- A package without a module has told nothing yet.
        have hnone : toldNames fullName? package files = [] := by
          have hfilter : (files.filter fun file => file.1 == package) = [] := by
            refine List.filter_eq_nil_iff.mpr ?_
            intro file hfile
            simpa using hstores.absent package hbefore file hfile
          rw [toldNames, hfilter, List.filterMap_nil]
        rw [hnone]
        rfl
    | some known =>
        rw [← (hstores.named package known hbefore).2.2]
        rfl

theorem Stores.addFile (hstores : Stores fullName? files world) :
    Stores fullName? (files ++ [(package, fileName, model)])
      (world.addFile package fileName (fullName? fileName) model) := by
  have hother : ∀ other, other ≠ package →
      (world.addFile package fileName (fullName? fileName) model).modules.get? other =
        world.modules.get? other := by
    intro other hne
    rw [World.addFile, Table.get?_insert, if_neg hne]
  refine ⟨?_, ?_, ?_, ?_⟩
  · intro package' fileName' model' hfile
    rw [file?_addFile] at hfile
    split at hfile
    · rename_i hsame
      obtain ⟨rfl, rfl⟩ := hsame
      cases hfile
      exact List.mem_append_right _ (List.mem_singleton_self _)
    · exact List.mem_append_left _ (hstores.listed _ _ _ hfile)
  · intro package' fileName' model' hfile
    rw [file?_addFile]
    split
    · exact ⟨model, rfl⟩
    · rename_i hne
      rcases List.mem_append.mp hfile with hfile | hfile
      · exact hstores.stored _ _ _ hfile
      · cases List.mem_singleton.mp hfile
        exact absurd ⟨rfl, rfl⟩ hne
  · intro other module hmodule
    by_cases hsame : other = package
    · subst hsame
      exact hstores.named_addFile hmodule
    · rw [hother other hsame] at hmodule
      rw [toldNames_append_other hsame]
      exact hstores.named other module hmodule
  · intro other hnone file hfile
    have hne : other ≠ package := by
      rintro rfl
      simp [World.addFile] at hnone
    rw [hother other hne] at hnone
    rcases List.mem_append.mp hfile with hfile | hfile
    · exact hstores.absent other hnone file hfile
    · rw [List.mem_singleton.mp hfile]
      exact hne.symm

theorem stores_addFiles (fullName? : String → Option String)
    (files : List (String × String × φ)) :
    Stores fullName? files (({} : World φ).addFiles fullName? files) := by
  induction files using List.reverseRecOn with
  | nil => exact stores_empty
  | append_singleton files file ih =>
      rw [addFiles_append]
      exact ih.addFile

/-- If no file is given in two versions, the world holds what is given. -/
theorem Stores.file?_iff (hstores : Stores fullName? files world)
    (hagree : ∀ package fileName model model', (package, fileName, model) ∈ files →
      (package, fileName, model') ∈ files → model = model') :
    world.file? package fileName = some model ↔ (package, fileName, model) ∈ files := by
  refine ⟨hstores.listed package fileName model, ?_⟩
  intro hmem
  obtain ⟨model', hfile⟩ := hstores.stored package fileName model hmem
  rw [hfile, hagree _ _ _ _ hmem (hstores.listed _ _ _ hfile)]

end World

/-! ## The contents of a place -/

/-- What a walk keeps of a file: nothing if it cannot be collected, and nothing if it
contributes nothing, unless such files are kept. -/
def WalkOptions.kept (options : WalkOptions) (source : String × String × GoFile) :
    Option (String × String × FileModel) :=
  match source.2.2.collect source.2.1 with
  | .error _ => none
  | .ok collected =>
      if collected.file.isEmpty && !options.keepEmpty then none
      else some (source.1, source.2.1, collected.file)

namespace Codebase

/-- The files at a place that a walk keeps, in the order of their packages and names. -/
def contents (base : Codebase) (options : WalkOptions) (key : String) :
    List (String × String × FileModel) :=
  match base.packages? key with
  | none => []
  | some packages => (options.files packages).filterMap options.kept

/-- At the place `key` there is a package with a file. -/
def HasFile (base : Codebase) (key package fileName : String) (file : GoFile) : Prop :=
  ∃ packages found, base.packages? key = some packages ∧
    packages.get? package = some found ∧ found.files.get? fileName = some file

/-- A file name never denotes two different files. -/
def Unambiguous (base : Codebase) : Prop :=
  ∀ key key' package package' fileName file file', base.HasFile key package fileName file →
    base.HasFile key' package' fileName file' → file = file'

end Codebase

variable {base : Codebase} {options : WalkOptions} {key package fileName : String}

theorem WalkOptions.mem_files {packages : Table Package} {file : GoFile} :
    (package, fileName, file) ∈ options.files packages ↔
      package ∉ options.exclude ∧ ∃ found, packages.get? package = some found ∧
        found.files.get? fileName = some file := by
  unfold WalkOptions.files
  rw [List.mem_flatMap]
  constructor
  · rintro ⟨⟨package', found⟩, hfound, hfile⟩
    obtain ⟨⟨fileName', file'⟩, hentry, heq⟩ := List.mem_map.mp hfile
    cases heq
    rw [List.mem_filter] at hfound
    refine ⟨by simpa using hfound.2, found, ?_, ?_⟩
    · exact Table.mem_entries.mp hfound.1
    · exact Table.mem_entries.mp hentry
  · rintro ⟨hallowed, found, hfound, hfile⟩
    refine ⟨(package, found), List.mem_filter.mpr ⟨Table.mem_entries.mpr hfound, ?_⟩, ?_⟩
    · simpa using hallowed
    · exact List.mem_map.mpr ⟨(fileName, file), Table.mem_entries.mpr hfile, rfl⟩

theorem Codebase.mem_contents {model : FileModel} :
    (package, fileName, model) ∈ base.contents options key ↔
      package ∉ options.exclude ∧ ∃ file collected, base.HasFile key package fileName file ∧
        file.collect fileName = .ok collected ∧
        (options.keepEmpty = true ∨ collected.file.isEmpty = false) ∧
        collected.file = model := by
  unfold Codebase.contents
  cases hpackages : base.packages? key with
  | none => simp [Codebase.HasFile, hpackages]
  | some packages =>
      simp only
      rw [List.mem_filterMap]
      constructor
      · rintro ⟨⟨package', fileName', file⟩, hfile, hkept⟩
        unfold WalkOptions.kept at hkept
        cases hcollect : file.collect fileName' with
        | error fault => simp [hcollect] at hkept
        | ok collected =>
            simp only [hcollect] at hkept
            split at hkept
            · cases hkept
            · rename_i hkeeps
              cases hkept
              obtain ⟨hallowed, found, hfound, hname⟩ := WalkOptions.mem_files.mp hfile
              refine ⟨hallowed, file, collected, ⟨packages, found, hpackages, hfound, hname⟩,
                hcollect, ?_, rfl⟩
              cases hempty : collected.file.isEmpty with
              | false => exact Or.inr rfl
              | true => exact Or.inl (by simpa [hempty] using hkeeps)
      · rintro ⟨hallowed, file, collected, ⟨packages', found, hsome, hfound, hname⟩, hcollect,
          hkeeps, rfl⟩
        rw [hpackages] at hsome
        cases hsome
        refine ⟨(package, fileName, file),
          WalkOptions.mem_files.mpr ⟨hallowed, found, hfound, hname⟩, ?_⟩
        have hkept : (collected.file.isEmpty && !options.keepEmpty) = false := by
          rcases hkeeps with hkeeps | hkeeps <;> simp [hkeeps]
        simp [WalkOptions.kept, hcollect, hkept]

/-- Where file names are unambiguous, no file is kept in two versions. -/
theorem Codebase.contents_agree (hfiles : base.Unambiguous) (places : List Place)
    (package fileName : String) (model model' : FileModel)
    (hmodel : (package, fileName, model) ∈
      places.flatMap fun place => base.contents options place.key)
    (hmodel' : (package, fileName, model') ∈
      places.flatMap fun place => base.contents options place.key) : model = model' := by
  obtain ⟨place, -, hmem⟩ := List.mem_flatMap.mp hmodel
  obtain ⟨place', -, hmem'⟩ := List.mem_flatMap.mp hmodel'
  obtain ⟨-, file, collected, hfile, hcollect, -, rfl⟩ := Codebase.mem_contents.mp hmem
  obtain ⟨-, file', collected', hfile', hcollect', -, rfl⟩ := Codebase.mem_contents.mp hmem'
  cases hfiles _ _ _ _ _ _ _ hfile hfile'
  rw [hcollect] at hcollect'
  cases hcollect'
  rfl

/-! ## The world of a history -/

namespace Walk

variable {walk before after : Walk} {place : Place} {depth : Nat} {moments : List Moment}

theorem collectFiles_world {needed imports : Table Import} {middle : Walk}
    {files : List (String × String × GoFile)}
    (hcollect : collectFiles base options walk needed files = (.ok imports, middle)) :
    middle.world = walk.world.addFiles base.fullName? (files.filterMap options.kept) := by
  induction files generalizing walk needed with
  | nil =>
      cases hcollect
      rfl
  | cons source rest ih =>
      obtain ⟨package, fileName, file⟩ := source
      obtain ⟨collected, hfile, hrest⟩ := collectFiles_cons_of_ok (congrArg Prod.fst hcollect)
      rw [hrest] at hcollect
      rw [ih hcollect]
      unfold keep store
      by_cases hempty : (collected.file.isEmpty && !options.keepEmpty) = true
      · have hkept : options.kept (package, fileName, file) = none := by
          simp [WalkOptions.kept, hfile, hempty]
        rw [if_pos hempty, List.filterMap_cons_none hkept]
      · have hkept : options.kept (package, fileName, file) =
            some (package, fileName, collected.file) := by
          simp [WalkOptions.kept, hfile, hempty]
        rw [if_neg hempty, List.filterMap_cons_some hkept]
        rfl

/-- Entering a place adds its contents. -/
theorem enter_world (walk : Walk) (depth : Nat) (hreadable : base.Readable options place.key) :
    (walk.enter base options place depth).world =
      walk.world.addFiles base.fullName? (base.contents options place.key) := by
  obtain ⟨packages, imports, middle, hpackages, hcollect, henter⟩ :=
    enter_of_readable walk depth hreadable
  have hcontents : base.contents options place.key =
      (options.files packages).filterMap options.kept := by
    simp [Codebase.contents, hpackages]
  have hworld := collectFiles_world hcollect
  rw [henter, hcontents]
  exact hworld

/-- Where no request is refused, the world is the sum of the contents of the places asked
for. -/
theorem History.world_eq (hhistory : History options before moments after)
    (hwithin : ∀ moment ∈ moments, moment.Within base)
    (hunrefused : ∀ moment ∈ moments, ¬ moment.Refused options) :
    after.world = before.world.addFiles base.fullName?
      ((requests moments).flatMap fun request => base.contents options request.place.key) := by
  induction hhistory with
  | start => rfl
  | @step moments moment _ hfits ih =>
      rw [List.forall_mem_append, List.forall_mem_singleton] at hwithin hunrefused
      have hearlier := ih hwithin.1 hunrefused.1
      have hgoes := hunrefused.2
      have hsame := hwithin.2.base_eq
      cases hrequest : moment.request? with
      | none =>
          obtain ⟨-, hworld, -⟩ := moment.after_of_no_request hfits hrequest
          rw [hworld, requests_concat_other hrequest]
          exact hearlier
      | some request =>
          obtain ⟨base', walk, event⟩ := moment
          obtain rfl : base' = base := hsame
          cases event with
          | approach place depth known => cases hrequest
          | follow place visit => cases hrequest
          | report place fullName => cases hrequest
          | parse place depth =>
              rw [requests_concat_parse, List.flatMap_append, World.addFiles_append, ← hearlier,
                List.flatMap_singleton]
              exact enter_world walk depth (not_not.mp hgoes)

/-- After runs that all end well, the visited places are those listed, and the world is the sum
of their contents. -/
theorem runAll_world_eq {targets : List String} {outcomes : List Outcome}
    (hruns : runAll base options {} targets = (outcomes, walk))
    (hdone : ∀ outcome ∈ outcomes, outcome = .done) :
    ∃ places : List Place, walk.order = places.map Place.path ∧
      (places.map Place.key).Nodup ∧
      (∀ key, walk.visited.contains key = true ↔ key ∈ places.map Place.key) ∧
      walk.world = ({} : World FileModel).addFiles base.fullName?
        (places.flatMap fun place => base.contents options place.key) := by
  obtain ⟨moments, hrecounts⟩ := @runAll_recounts base options targets {}
    (by rw [hruns]; exact hdone)
  rw [hruns] at hrecounts
  have hunrefused := hrecounts.unrefused rfl
  have htallied := hrecounts.history.tallied rfl
  refine ⟨(requests moments).map Request.place, ?_, ?_, ?_, ?_⟩
  · rw [htallied.order, List.map_map]
    rfl
  · rw [List.map_map]
    exact htallied.nodup fun moment hmoment =>
      hunrefused moment (List.dropLast_subset _ hmoment)
  · intro key
    rw [htallied.visited_iff hunrefused, List.map_map]
    rfl
  · rw [List.flatMap_map]
    exact hrecounts.history.world_eq hrecounts.within hunrefused

/-- **The world holds what the visited places contribute.**  Where a file name never
denotes two different files, after runs that all end well: a file is stored in the module of a
package exactly if the package is not excluded and some visited place has it in the package, and
it is kept; what is stored is what it collects to.  Every module is stored under its name and
has a file, and its import path is the first that one of its files tells, in the order of the
visits, of the packages and of the files. -/
theorem runAll_world (base : Codebase) (options : WalkOptions) (targets : List String)
    (hfiles : base.Unambiguous) {outcomes : List Outcome} {walk : Walk}
    (hruns : runAll base options {} targets = (outcomes, walk))
    (hdone : ∀ outcome ∈ outcomes, outcome = .done) :
    (∀ package fileName model, walk.world.file? package fileName = some model ↔
      package ∉ options.exclude ∧ ∃ key file collected, walk.visited.contains key = true ∧
        base.HasFile key package fileName file ∧ file.collect fileName = .ok collected ∧
        (options.keepEmpty = true ∨ collected.file.isEmpty = false) ∧
        collected.file = model) ∧
    (∀ package module, walk.world.modules.get? package = some module →
      module.name = package ∧ ∃ fileName model, module.files.get? fileName = some model) ∧
    ∃ places : List Place, walk.order = places.map Place.path ∧
      (places.map Place.key).Nodup ∧
      (∀ key, walk.visited.contains key = true ↔ key ∈ places.map Place.key) ∧
      ∀ package module, walk.world.modules.get? package = some module →
        module.fullName = World.firstTold (World.toldNames base.fullName? package
          (places.flatMap fun place => base.contents options place.key)) := by
  obtain ⟨places, horder, hnodup, hvisited, hworld⟩ := runAll_world_eq hruns hdone
  have hstores := World.stores_addFiles base.fullName?
    (places.flatMap fun place => base.contents options place.key)
  rw [← hworld] at hstores
  refine ⟨?_, ?_, places, horder, hnodup, hvisited, ?_⟩
  · intro package fileName model
    rw [hstores.file?_iff (Codebase.contents_agree hfiles places), List.mem_flatMap]
    constructor
    · rintro ⟨place, hplace, hmem⟩
      obtain ⟨hallowed, file, collected, hfile⟩ := Codebase.mem_contents.mp hmem
      exact ⟨hallowed, place.key, file, collected,
        (hvisited _).mpr (List.mem_map_of_mem hplace), hfile⟩
    · rintro ⟨hallowed, key, file, collected, hkey, hfile⟩
      obtain ⟨place, hplace, rfl⟩ := List.mem_map.mp ((hvisited key).mp hkey)
      exact ⟨place, hplace, Codebase.mem_contents.mpr ⟨hallowed, file, collected, hfile⟩⟩
  · intro package module hmodule
    obtain ⟨hname, hfile, -⟩ := hstores.named package module hmodule
    exact ⟨hname, hfile⟩
  · intro package module hmodule
    exact (hstores.named package module hmodule).2.2

end Walk

/-! ## A package in two places

The files at `x` and at `y` belong to one package, and the one at `x` refers to the other by
an import.  Only the file at `y` tells the import path. -/

def Codebase.twin : Codebase where
  places := ["x", "y"]
  parse? := fun key =>
    some (Package.ofFiles [(key, .referring "m" (if key = "x" then ["y"] else []))])
  refusal := fun place => .notFound place.path
  locate := fun path => .ok ⟨path, path⟩
  workspace? := fun _ => none
  system? := some
  fullName? := fun fileName => some (if fileName = "y" then "e/m" else "")

theorem Package.get?_ofFiles_single {name package fileName : String} {file other : GoFile}
    {found : Package} (hfound : (ofFiles [(name, file)]).get? package = some found)
    (hother : found.files.get? fileName = some other) : fileName = name ∧ other = file := by
  simp only [ofFiles, addFile, List.foldl_cons, List.foldl_nil, Table.get?_insert,
    Table.get?_empty, Option.getD_none] at hfound
  split at hfound
  · cases hfound
    simp only [Table.get?_insert] at hother
    split at hother
    · rename_i hname
      exact ⟨hname, (Option.some.inj hother).symm⟩
    · cases hother
  · cases hfound

/-- Where each place has one file, named like the place, file names are unambiguous. -/
theorem Codebase.unambiguous_of_single {base : Codebase} {fileAt : String → GoFile}
    (hparse : ∀ key, base.parse? key = some (Package.ofFiles [(key, fileAt key)])) :
    base.Unambiguous := by
  have hfile : ∀ key package fileName file, base.HasFile key package fileName file →
      file = fileAt fileName := by
    rintro key package fileName file ⟨packages, found, hpackages, hfound, hfile⟩
    unfold packages? at hpackages
    split at hpackages
    · rw [hparse] at hpackages
      cases hpackages
      obtain ⟨rfl, rfl⟩ := Package.get?_ofFiles_single hfound hfile
      rfl
    · cases hpackages
  intro key key' package package' fileName file file' hfirst hsecond
  rw [hfile _ _ _ _ hfirst, hfile _ _ _ _ hsecond]

theorem Codebase.twin_unambiguous : twin.Unambiguous :=
  unambiguous_of_single fun _ => rfl

set_option maxRecDepth 4000 in
/-- The file at `y` is stored in the module of both places. -/
theorem Walk.runAll_world_twin :
    Codebase.twin.Unambiguous ∧
      (runAll .twin { exclude := [] } {} ["x"]).1 = [.done] ∧
      ∃ model, (runAll .twin { exclude := [] } {} ["x"]).2.world.file? "m" "y" = some model := by
  have hrun : ((runAll .twin { exclude := [] } {} ["x"]).1,
      (runAll .twin { exclude := [] } {} ["x"]).2.visited.contains "y",
      ((GoFile.referring "m" []).collect "y").toOption.map fun collected =>
        collected.file.isEmpty) = ([.done], true, some false) := by cbv
  simp only [Prod.mk.injEq] at hrun
  obtain ⟨hdone, hvisited, hcollect⟩ := hrun
  have hworld := runAll_world .twin { exclude := [] } ["x"] Codebase.twin_unambiguous
    (Prod.ext hdone rfl) (by simp)
  refine ⟨Codebase.twin_unambiguous, hdone, ?_⟩
  cases hfile : (GoFile.referring "m" []).collect "y" with
  | error fault => simp [hfile, Except.toOption] at hcollect
  | ok collected =>
      have hkept : collected.file.isEmpty = false := by
        simpa [hfile, Except.toOption] using hcollect
      refine ⟨collected.file, (hworld.1 "m" "y" collected.file).mpr ⟨by simp, "y",
        .referring "m" [], collected, hvisited, ?_, hfile, Or.inr hkept, rfl⟩⟩
      exact ⟨_, _, rfl, rfl, rfl⟩

end GoAtlas
