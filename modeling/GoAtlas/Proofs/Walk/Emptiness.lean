import GoAtlas.Proofs.Walk.Contents
import GoAtlas.Proofs.Walk.Nesting

/-!
# Files that contribute nothing

Files that contribute nothing are kept or not (`WalkOptions.keepEmpty`), and that is all the
option does: the same targets walked with it and without it end in the same way, visit the same
places and make the same reports, and the worlds differ in those files only
(`Walk.runAll_keepEmpty`).

The two walks go side by side.  What is related is a walk without empty files and one with them
(`Walk.Thins`), and each step of one is a step of the other, because only `Walk.store` looks at
the option or at the world.  Storing is where it matters that a file name never denotes two
different files: an empty file must not take the place of another that is kept.
-/

namespace GoAtlas

namespace WalkOptions

/-- The options with empty files kept or not. -/
def keeping (options : WalkOptions) (keepEmpty : Bool) : WalkOptions :=
  { options with keepEmpty }

@[simp] theorem keeping_maxDepth (options : WalkOptions) (keepEmpty : Bool) :
    (options.keeping keepEmpty).maxDepth = options.maxDepth := by
  cases options
  rfl

@[simp] theorem keeping_stopsAt (options : WalkOptions) (keepEmpty : Bool) (depth : Nat) :
    (options.keeping keepEmpty).stopsAt depth = options.stopsAt depth := by
  cases options
  rfl

@[simp] theorem keeping_files (options : WalkOptions) (keepEmpty : Bool)
    (packages : Table Package) :
    (options.keeping keepEmpty).files packages = options.files packages := by
  cases options
  rfl

end WalkOptions

namespace Codebase

/-- Somewhere in the code base there is a file of the given name that collects to `model`. -/
def Models (base : Codebase) (fileName : String) (model : FileModel) : Prop :=
  ∃ key package file collected, base.HasFile key package fileName file ∧
    file.collect fileName = .ok collected ∧ collected.file = model

variable {base : Codebase} {fileName : String} {model model' : FileModel}

theorem Models.unique (hfiles : base.Unambiguous) (hmodel : base.Models fileName model)
    (hmodel' : base.Models fileName model') : model = model' := by
  obtain ⟨_, _, file, collected, hfile, hcollect, rfl⟩ := hmodel
  obtain ⟨_, _, file', collected', hfile', hcollect', rfl⟩ := hmodel'
  obtain rfl := hfiles _ _ _ _ _ _ _ hfile hfile'
  rw [Except.ok.inj (hcollect.symm.trans hcollect')]

end Codebase

/-! ## Worlds without empty files -/

/-- The world `thin` is `full` without the files that contribute nothing, and without modules
that have no other files. -/
structure World.Thins (thin full : World FileModel) : Prop where
  file?_iff : ∀ package fileName model, thin.file? package fileName = some model ↔
    full.file? package fileName = some model ∧ model.isEmpty = false
  inhabited : ∀ package, thin.modules.contains package = true →
    ∃ fileName model, thin.file? package fileName = some model

namespace World

variable {thin full : World FileModel} {package fileName : String} {model : FileModel}
  {fullName? : Option String}

theorem thins_empty : Thins {} {} where
  file?_iff := by
    intro package fileName model
    simp [file?]
  inhabited := by
    intro package hmodule
    cases hmodule

theorem contains_addFile (world : World FileModel) (other : String) :
    (world.addFile package fileName fullName? model).modules.contains other =
      (decide (other = package) || world.modules.contains other) :=
  Table.contains_insert

/-- A file that contributes something goes to both worlds. -/
theorem Thins.addFile (hthins : Thins thin full) (hmodel : model.isEmpty = false) :
    Thins (thin.addFile package fileName fullName? model)
      (full.addFile package fileName fullName? model) := by
  constructor
  · intro package' fileName' model'
    rw [file?_addFile, file?_addFile]
    split
    · constructor
      · intro hsome
        cases hsome
        exact ⟨rfl, hmodel⟩
      · exact And.left
    · exact hthins.file?_iff package' fileName' model'
  · intro other hother
    by_cases hpackage : other = package
    · subst hpackage
      exact ⟨fileName, model, by rw [file?_addFile, if_pos ⟨rfl, rfl⟩]⟩
    · rw [contains_addFile, decide_eq_false hpackage, Bool.false_or] at hother
      obtain ⟨name, found, hfound⟩ := hthins.inhabited other hother
      exact ⟨name, found, by rw [file?_addFile, if_neg fun hsame => hpackage hsame.1, hfound]⟩

/-- A file that contributes nothing goes to the full world only, if nothing else stands in its
place there. -/
theorem Thins.addEmpty (hthins : Thins thin full) (hmodel : model.isEmpty = true)
    (hplace : ∀ known, full.file? package fileName = some known → known = model) :
    Thins thin (full.addFile package fileName fullName? model) := by
  refine ⟨fun package' fileName' model' => ?_, hthins.inhabited⟩
  rw [hthins.file?_iff, file?_addFile]
  split
  case isFalse => rfl
  case isTrue hsame =>
    obtain ⟨rfl, rfl⟩ := hsame
    constructor
    · rintro ⟨hknown, hempty⟩
      rw [hplace model' hknown, hmodel] at hempty
      cases hempty
    · rintro ⟨hsome, hempty⟩
      cases hsome
      rw [hmodel] at hempty
      cases hempty

end World

namespace Walk

/-- The walk `thin` is `full` without the files that contribute nothing; what `full` has stored
is found in the code base. -/
structure Thins (base : Codebase) (thin full : Walk) : Prop where
  visited : thin.visited = full.visited
  order : thin.order = full.order
  diagnostics : thin.diagnostics = full.diagnostics
  world : World.Thins thin.world full.world
  models : ∀ package fileName model, full.world.file? package fileName = some model →
    base.Models fileName model

/-- Two runs end in the same way, with walks that differ in empty files. -/
structure EndAlike (base : Codebase) (thin full : Outcome × Walk) : Prop where
  outcome : thin.1 = full.1
  thins : Thins base thin.2 full.2

variable {base : Codebase} (options : WalkOptions) {thin full : Walk}

theorem thins_empty : Thins base {} {} :=
  ⟨rfl, rfl, rfl, World.thins_empty, fun _ _ _ hfile => by cases hfile⟩

/-! ## Steps that leave the world alone -/

theorem Thins.setVisit (hthins : Thins base thin full) (place : Place) (visit : Visit) :
    Thins base (thin.setVisit place visit) (full.setVisit place visit) :=
  { hthins with visited := congrArg (·.insert place.key visit) hthins.visited }

theorem Thins.ask (hthins : Thins base thin full) (path : String) :
    Thins base { thin with order := thin.order ++ [path] }
      { full with order := full.order ++ [path] } :=
  { hthins with order := congrArg (· ++ [path]) hthins.order }

theorem Thins.report (hthins : Thins base thin full) (reports : List Diagnostic) :
    Thins base { thin with diagnostics := thin.diagnostics ++ reports }
      { full with diagnostics := full.diagnostics ++ reports } :=
  { hthins with diagnostics := congrArg (· ++ reports) hthins.diagnostics }

/-! ## Collecting -/

theorem Thins.store (hfiles : base.Unambiguous) (hthins : Thins base thin full)
    (package : String) {fileName : String} {model : FileModel}
    (hmodel : base.Models fileName model) :
    Thins base (thin.store base (options.keeping false) package fileName model)
      (full.store base (options.keeping true) package fileName model) := by
  have hmodels : ∀ package' fileName' model',
      (full.world.addFile package fileName (base.fullName? fileName) model).file?
        package' fileName' = some model' → base.Models fileName' model' := by
    intro package' fileName' model' hfile
    rw [World.file?_addFile] at hfile
    split at hfile
    · rename_i hsame
      cases hfile
      exact hsame.2 ▸ hmodel
    · exact hthins.models package' fileName' model' hfile
  simp only [Walk.store, WalkOptions.keeping]
  cases hempty : model.isEmpty with
  | false => exact { hthins with world := hthins.world.addFile hempty, models := hmodels }
  | true =>
      -- The full world must not lose a file that is kept in the other one, so what stands in
      -- the place of the empty file has to be that file itself.
      refine { hthins with world := hthins.world.addEmpty hempty ?_, models := hmodels }
      exact fun known hknown => (hthins.models _ _ _ hknown).unique hfiles hmodel

/-- Collecting finds the same imports, or fails over the same file. -/
theorem collectFiles_thins (hfiles : base.Unambiguous) {files : List (String × String × GoFile)}
    (hhas : ∀ package fileName file, (package, fileName, file) ∈ files →
      ∃ key, base.HasFile key package fileName file) :
    ∀ (thin full : Walk) (needed : Table Import), Thins base thin full →
      (collectFiles base (options.keeping false) thin needed files).1 =
        (collectFiles base (options.keeping true) full needed files).1 ∧
      Thins base (collectFiles base (options.keeping false) thin needed files).2
        (collectFiles base (options.keeping true) full needed files).2 := by
  induction files with
  | nil => exact fun thin full needed hthins => ⟨rfl, hthins⟩
  | cons source rest ih =>
      obtain ⟨package, fileName, file⟩ := source
      intro thin full needed hthins
      have hrest := ih fun package' fileName' file' hfile =>
        hhas package' fileName' file' (List.mem_cons_of_mem _ hfile)
      simp only [collectFiles]
      cases hcollect : file.collect fileName with
      | error fault => exact ⟨rfl, hthins⟩
      | ok collected =>
          obtain ⟨key, hfile⟩ := hhas package fileName file (List.mem_cons_self ..)
          have hmodel : base.Models fileName collected.file :=
            ⟨key, package, file, collected, hfile, hcollect, rfl⟩
          exact hrest _ _ _ ((hthins.report collected.diagnostics).store options hfiles package
            hmodel)

/-! ## Visiting -/

theorem followEach_thins {next next' : String → Walk → Outcome × Walk}
    (hnext : ∀ path thin full, Thins base thin full →
      EndAlike base (next path thin) (next' path full))
    (place : Place) (report : Bool) (imports : List Import) :
    ∀ thin full, Thins base thin full →
      EndAlike base (followEach base next place report imports thin)
        (followEach base next' place report imports full) := by
  induction imports with
  | nil => exact fun thin full hthins => ⟨rfl, hthins⟩
  | cons entry rest ih =>
      intro thin full hthins
      simp only [followEach]
      cases base.resolve? entry.fullName with
      | none =>
          cases report with
          | false => exact ih _ _ hthins
          | true => exact ih _ _ (hthins.report _)
      | some path =>
          have hvisit := hnext path thin full hthins
          simp only
          generalize next path thin = ended at hvisit
          generalize next' path full = ended' at hvisit
          obtain ⟨outcome, thin'⟩ := ended
          obtain ⟨outcome', full'⟩ := ended'
          obtain ⟨rfl, hthins'⟩ := hvisit
          cases outcome with
          | done => exact ih _ _ hthins'
          | failed fault => exact ⟨rfl, hthins'⟩
          | exhausted => exact ⟨rfl, hthins'⟩

/-- Two visits come to the same before they follow any import. -/
inductive ArriveAlike (base : Codebase) : Arrival → Arrival → Prop
  | ends {result result' : Outcome × Walk} (hends : EndAlike base result result') :
      ArriveAlike base (.ends result) (.ends result')
  | goesOn (place : Place) (visit : Visit) {thin full : Walk} (hthins : Thins base thin full) :
      ArriveAlike base (.goesOn place visit thin) (.goesOn place visit full)

theorem arrive_thins (hfiles : base.Unambiguous) (hthins : Thins base thin full) (depth : Nat)
    (path : String) :
    ArriveAlike base (arrive base (options.keeping false) depth path thin)
      (arrive base (options.keeping true) depth path full) := by
  unfold arrive
  cases base.locate path with
  | error fault => exact .ends ⟨rfl, hthins⟩
  | ok place =>
      have hvisited : thin.visited.get? place.key = full.visited.get? place.key := by
        rw [hthins.visited]
      simp only
      rw [hvisited]
      cases full.visited.get? place.key with
      | some known =>
          simp only [WalkOptions.keeping_maxDepth]
          split
          · exact .ends ⟨rfl, hthins⟩
          · exact .goesOn _ _ (hthins.setVisit _ _)
      | none =>
          have hasked := hthins.ask place.path
          simp only
          cases hpackages : base.packages? place.key with
          | none => exact .ends ⟨rfl, hasked⟩
          | some packages =>
              have hhas : ∀ package fileName file,
                  (package, fileName, file) ∈ options.files packages →
                    ∃ key, base.HasFile key package fileName file := by
                intro package fileName file hfile
                obtain ⟨-, found, hfound, hname⟩ := WalkOptions.mem_files.mp hfile
                exact ⟨place.key, packages, found, hpackages, hfound, hname⟩
              have hcollect := collectFiles_thins options hfiles hhas _ _ Table.empty hasked
              simp only [WalkOptions.keeping_files]
              generalize collectFiles base (options.keeping false) _ _ _ = ended at hcollect
              generalize collectFiles base (options.keeping true) _ _ _ = ended' at hcollect
              obtain ⟨result, thin'⟩ := ended
              obtain ⟨result', full'⟩ := ended'
              obtain ⟨rfl, hthins'⟩ := hcollect
              cases result with
              | error fault => exact .ends ⟨rfl, hthins'⟩
              | ok imports => exact .goesOn _ _ (hthins'.setVisit _ _)

theorem visit_thins (hfiles : base.Unambiguous) (nesting : Nat) :
    ∀ depth path thin full, Thins base thin full →
      EndAlike base (Walk.visit base (options.keeping false) nesting depth path thin)
        (Walk.visit base (options.keeping true) nesting depth path full) := by
  induction nesting with
  | zero =>
      intro depth path thin full hthins
      exact ⟨rfl, hthins⟩
  | succ nesting ih =>
      intro depth path thin full hthins
      rw [visit_succ, visit_succ]
      have harrive := arrive_thins options hfiles hthins depth path
      generalize arrive base (options.keeping false) depth path thin = arrival at harrive
      generalize arrive base (options.keeping true) depth path full = arrival' at harrive
      cases harrive with
      | ends hends => exact hends
      | goesOn place visit hthins =>
          simp only [follow, WalkOptions.keeping_stopsAt]
          split
          · exact ⟨rfl, hthins⟩
          · exact followEach_thins (ih (depth + 1)) _ _ _ _ _ (hthins.setVisit _ _)

theorem runAll_thins (hfiles : base.Unambiguous) (targets : List String) :
    ∀ thin full, Thins base thin full →
      (runAll base (options.keeping false) thin targets).1 =
        (runAll base (options.keeping true) full targets).1 ∧
      Thins base (runAll base (options.keeping false) thin targets).2
        (runAll base (options.keeping true) full targets).2 := by
  induction targets with
  | nil => exact fun thin full hthins => ⟨rfl, hthins⟩
  | cons target rest ih =>
      intro thin full hthins
      have hrun : EndAlike base (thin.run base (options.keeping false) target)
          (full.run base (options.keeping true) target) :=
        visit_thins options hfiles (base.nesting options) 0 target thin full hthins
      obtain ⟨houtcomes, hrest⟩ := ih _ _ hrun.thins
      simp only [runAll]
      exact ⟨by rw [hrun.outcome, houtcomes], hrest⟩

/-- **Empty files are noise.**  Where a file name never denotes two different files, targets
walked with and without `keepEmpty` end in the same way, whether well or not, visit the same
places, with the same depths and imports, and make the same reports.  The files stored without
it are those stored with it that contribute something, and the modules are those that have such
a file. -/
theorem runAll_keepEmpty (base : Codebase) (hfiles : base.Unambiguous) (options : WalkOptions)
    (targets : List String) {outcomes outcomes' : List Outcome} {thin full : Walk}
    (hthin : runAll base { options with keepEmpty := false } {} targets = (outcomes, thin))
    (hfull : runAll base { options with keepEmpty := true } {} targets = (outcomes', full)) :
    outcomes = outcomes' ∧ thin.order = full.order ∧ thin.visited = full.visited ∧
      thin.diagnostics = full.diagnostics ∧
      (∀ package fileName model, thin.world.file? package fileName = some model ↔
        full.world.file? package fileName = some model ∧ model.isEmpty = false) ∧
      ∀ package, thin.world.modules.contains package = true ↔
        ∃ fileName model, full.world.file? package fileName = some model ∧
          model.isEmpty = false := by
  obtain ⟨houtcomes, hthins⟩ := runAll_thins options hfiles targets {} {} thins_empty
  unfold WalkOptions.keeping at houtcomes hthins
  rw [hthin, hfull] at houtcomes hthins
  refine ⟨houtcomes, hthins.order, hthins.visited, hthins.diagnostics, hthins.world.file?_iff,
    fun package => ?_⟩
  constructor
  · intro hmodule
    obtain ⟨fileName, model, hfile⟩ := hthins.world.inhabited package hmodule
    exact ⟨fileName, model, (hthins.world.file?_iff _ _ _).mp hfile⟩
  · rintro ⟨fileName, model, hfile⟩
    have hstored := (hthins.world.file?_iff _ _ _).mpr hfile
    obtain ⟨module, hmodule, -⟩ := Option.bind_eq_some_iff.mp hstored
    exact Table.contains_of_get? hmodule

end Walk

/-- The package at `x` refers to the one at `y`, whose only file declares nothing. -/
def Codebase.hollow : Codebase where
  places := ["x", "y"]
  parse? := fun key => some (Package.ofFiles [(key,
    if key = "x" then .referring "m" ["y"] else { package := "n", imports := [], decls := [] })])
  refusal := fun place => .notFound place.path
  locate := fun path => .ok ⟨path, path⟩
  workspace? := fun _ => none
  system? := some
  fullName? := fun _ => none

set_option maxRecDepth 4000 in
/-- The module of the empty file is there only if such files are kept, and its place is visited
in both walks. -/
theorem Walk.runAll_keepEmpty_hollow :
    Codebase.hollow.Unambiguous ∧
      ∃ thin full, runAll .hollow { exclude := [], keepEmpty := false } {} ["x"] = ([.done], thin) ∧
        runAll .hollow { exclude := [], keepEmpty := true } {} ["x"] = ([.done], full) ∧
        thin.order = full.order ∧ full.order = ["x", "y"] ∧
        full.world.modules.contains "n" = true ∧ thin.world.modules.contains "n" = false ∧
        ∀ fileName model, full.world.file? "n" fileName = some model → model.isEmpty = true := by
  have hunambiguous : Codebase.hollow.Unambiguous :=
    Codebase.unambiguous_of_single fun _ => rfl
  have hthin : ((runAll .hollow { exclude := [], keepEmpty := false } {} ["x"]).1,
      (runAll .hollow { exclude := [], keepEmpty := false } {} ["x"]).2.world.modules.contains
        "n") = ([.done], false) := by cbv
  have hfull : ((runAll .hollow { exclude := [], keepEmpty := true } {} ["x"]).1,
      (runAll .hollow { exclude := [], keepEmpty := true } {} ["x"]).2.order,
      (runAll .hollow { exclude := [], keepEmpty := true } {} ["x"]).2.world.modules.contains
        "n") = ([.done], ["x", "y"], true) := by cbv
  simp only [Prod.mk.injEq] at hthin hfull
  obtain ⟨hdone, habsent⟩ := hthin
  obtain ⟨hdone', horder, hmodule⟩ := hfull
  obtain ⟨-, horders, -, -, -, hmodules⟩ := runAll_keepEmpty .hollow hunambiguous
    { exclude := [] } ["x"] (Prod.ext hdone rfl) (Prod.ext hdone' rfl)
  refine ⟨hunambiguous, _, _, Prod.ext hdone rfl, Prod.ext hdone' rfl, horders, horder, hmodule,
    habsent, fun fileName model hfile => ?_⟩
  cases hempty : model.isEmpty with
  | true => rfl
  | false =>
      have hpresent := (hmodules "n").mpr ⟨fileName, model, hfile, hempty⟩
      cases habsent.symm.trans hpresent

end GoAtlas
