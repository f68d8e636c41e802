import GoAtlas.Command.Run
import GoAtlas.Proofs.Files.Frame
import GoAtlas.Proofs.Settings.Change

/-!
# What a run changes

A run names the one file it may write before it does anything: the output file of a command
for a model, the settings file of a command that changes a setting, and none otherwise
(`writtenFile?`).  Everything that can go wrong, from the settings to the target and the packages
it needs, goes wrong before a file is opened, so a run that fails has changed no file
(`runProgram_frame`).

The two commands for models have the same ending, `deliver`, and differ only in what is built
(`Invocation.Builds`).  It is built from the tree before the run, also when the output file is one
of the files that are read.
-/

namespace GoAtlas

/-! ## What a run may write and what it builds -/

namespace Command

/-- The request of a command for a model. -/
def request? : Command → Option Request
  | .structs request _ | .funcs request => some request
  | .getSetting _ | .setSetting _ _ => none

end Command

/-- The code base that a request is about. -/
def Request.codebase (request : Request) (tree : FileTree) (env : Environment)
    (settings : Settings) : Codebase :=
  tree.codebase env (request.locator tree env settings.paths)
    (request.includeTests || settings.walk.includeTests)

namespace Invocation

/-- The path of the file that a command may write. -/
def writtenFile? (invocation : Invocation) (env : Environment) : Option String :=
  match invocation.command with
  | .structs request _ | .funcs request => request.output
  | .getSetting _ => none
  | .setSetting _ _ => some (invocation.settingsFile env)

/-- By the settings `settings`, a command for a model builds from a tree the world that is written
as `json`. -/
inductive Builds (invocation : Invocation) (tree : FileTree) (env : Environment) :
    Settings → Json → Prop
  | structs {request : Request} {changes : WalkChanges} {settings : Settings} {walk : Walk}
      (hcommand : invocation.command = .structs request changes)
      (hsettings : invocation.settings tree env = .ok settings)
      (hwalk : Walk.run (request.codebase tree env settings)
        (settings.walk.changed request changes).options {} request.target = (.done, walk)) :
      Builds invocation tree env settings (walk.world.toJson FileModel.toJson)
  | funcs {request : Request} {settings : Settings} {world : World FuncFile}
      (hcommand : invocation.command = .funcs request)
      (hsettings : invocation.settings tree env = .ok settings)
      (hworld : (request.codebase tree env settings).functions request.target = .ok world) :
      Builds invocation tree env settings (world.toJson FuncFile.toJson)

end Invocation

/-- The path of the file that a run with the given arguments may write. -/
def writtenFile? (env : Environment) (args : List String) : Option String :=
  match Invocation.read args with
  | .ok invocation => invocation.writtenFile? env
  | .error _ => none

/-- A text has been written to the output file of a request, or else to the standard output. -/
def Request.Receives (request : Request) (text : String) (run : FileTree × Ending) : Prop :=
  match request.output with
  | some path => run.1.read? path = some text ∧ ∃ notes, run.2 = .success "" notes
  | none => ∃ notes, run.2 = .success text notes

/-- A run changes no file if it fails, and else at most the one that `path?` leads to. -/
structure Frames (tree : FileTree) (path? : Option String) (run : FileTree × Ending) : Prop where
  failure : run.2.code ≠ 0 → tree.SameFiles run.1
  success : run.2.code = 0 → tree.SameFilesBut path? run.1

variable {tree after : FileTree} {env : Environment} {ending : Ending} {invocation : Invocation}
  {request : Request}

/-- Where the tree is as before, it does not matter how a run ends. -/
theorem frames_same (tree : FileTree) (path? : Option String) (ending : Ending) :
    Frames tree path? (tree, ending) :=
  ⟨fun _ => .refl tree, fun _ => (FileTree.SameFiles.refl tree).but path?⟩

/-! ## Commands for models -/

theorem deliver_cases (tree : FileTree) (request : Request) (text : String)
    (notes : List String) :
    (request.output = none ∧ deliver tree request text notes = (tree, .success text notes)) ∨
      (∃ path written, request.output = some path ∧ tree.write? path text = some written ∧
        deliver tree request text notes = (written, .success "" notes)) ∨
      ∃ path, request.output = some path ∧ tree.write? path text = none ∧
        deliver tree request text notes = (tree, .failure .output) := by
  cases houtput : request.output with
  | none => exact .inl ⟨rfl, by simp only [deliver, houtput]⟩
  | some path =>
      cases hwrite : tree.write? path text with
      | none => exact .inr (.inr ⟨path, rfl, hwrite, by simp only [deliver, houtput, hwrite]⟩)
      | some written =>
          exact .inr (.inl ⟨path, written, rfl, hwrite, by simp only [deliver, houtput, hwrite]⟩)

theorem frames_deliver (tree : FileTree) (request : Request) (text : String)
    (notes : List String) : Frames tree request.output (deliver tree request text notes) := by
  rcases deliver_cases tree request text notes with ⟨-, hrun⟩ | ⟨path, written, houtput, hwrite,
    hrun⟩ | ⟨path, -, -, hrun⟩
  · rw [hrun]
    exact frames_same tree _ _
  · rw [hrun, houtput]
    exact ⟨fun hfailed => absurd rfl hfailed, fun _ => FileTree.sameFilesBut_write? hwrite⟩
  · rw [hrun]
    exact frames_same tree _ _

theorem receives_deliver {text : String} {notes : List String}
    (hrun : deliver tree request text notes = (after, ending)) (hcode : ending.code = 0) :
    request.Receives text (after, ending) := by
  rcases deliver_cases tree request text notes with ⟨houtput, hcase⟩ | ⟨path, written, houtput,
    hwrite, hcase⟩ | ⟨path, -, -, hcase⟩
  · cases hcase.symm.trans hrun
    simp only [Request.Receives, houtput]
    exact ⟨notes, rfl⟩
  · cases hcase.symm.trans hrun
    simp only [Request.Receives, houtput]
    exact ⟨FileTree.read?_write? hwrite, notes, rfl⟩
  · cases hcase.symm.trans hrun
    cases hcode

/-- What has been built is delivered if there is a place for it. -/
theorem code_deliver {text : String} {notes : List String}
    (hrun : deliver tree request text notes = (after, ending))
    (hplace : ∀ path ∈ request.output, (tree.filePlace? path).isSome = true) :
    ending.code = 0 := by
  rcases deliver_cases tree request text notes with ⟨-, hcase⟩ | ⟨path, written, -, -, hcase⟩ |
    ⟨path, houtput, hwrite, -⟩
  · cases hcase.symm.trans hrun
    rfl
  · cases hcase.symm.trans hrun
    rfl
  · have hnone : tree.filePlace? path = none := Option.map_eq_none_iff.mp hwrite
    simpa [hnone] using hplace path houtput

theorem walkTarget_eq_ok_iff {base : Codebase} {options : WalkOptions} {target : String}
    {walk : Walk} : Command.walkTarget base options target = .ok walk ↔
      Walk.run base options {} target = (.done, walk) := by
  unfold Command.walkTarget
  split <;> simp_all

theorem runStructs_cases (tree : FileTree) (env : Environment) (settings : Settings)
    (verbose : Bool) (request : Request) (changes : WalkChanges) :
    (∃ fault, Command.walkTarget (request.codebase tree env settings)
        (settings.walk.changed request changes).options request.target = .error fault ∧
      Command.runStructs tree env settings verbose request changes =
        (tree, .failure (.fault fault))) ∨
    ∃ walk notes, Walk.run (request.codebase tree env settings)
        (settings.walk.changed request changes).options {} request.target = (.done, walk) ∧
      Command.runStructs tree env settings verbose request changes =
        deliver tree request (resultText request settings (walk.world.toJson FileModel.toJson))
          notes := by
  -- Whether tests are included is decided in another order than for functions.
  have hbase : tree.codebase env (request.locator tree env settings.paths)
      (settings.walk.changed request changes).includeTests =
        request.codebase tree env settings := by
    rw [Request.codebase, Bool.or_comm]
    rfl
  unfold Command.runStructs
  simp only [hbase]
  cases hwalk : Command.walkTarget (request.codebase tree env settings)
      (settings.walk.changed request changes).options request.target with
  | error fault => exact .inl ⟨fault, rfl, rfl⟩
  | ok walk => exact .inr ⟨walk, _, walkTarget_eq_ok_iff.mp hwalk, rfl⟩

theorem runFuncs_cases (tree : FileTree) (env : Environment) (settings : Settings)
    (request : Request) :
    (∃ fault, (request.codebase tree env settings).functions request.target = .error fault ∧
      Command.runFuncs tree env settings request = (tree, .failure (.fault fault))) ∨
    ∃ world, (request.codebase tree env settings).functions request.target = .ok world ∧
      Command.runFuncs tree env settings request =
        deliver tree request (resultText request settings (world.toJson FuncFile.toJson)) [] := by
  cases hworld : (request.codebase tree env settings).functions request.target with
  | error fault =>
      refine .inl ⟨fault, rfl, ?_⟩
      rw [Request.codebase] at hworld
      simp only [Command.runFuncs, hworld]
  | ok world =>
      refine .inr ⟨world, rfl, ?_⟩
      rw [Request.codebase] at hworld
      simp only [Command.runFuncs, hworld]

namespace Invocation

/-- A command for a model fails before it writes, or has built a world. -/
theorem run_fails_or_builds (tree : FileTree) (env : Environment)
    (hrequest : invocation.command.request? = some request) :
    (∃ fault, invocation.run tree env = (tree, .failure (.fault fault))) ∨
      ∃ settings json, invocation.Builds tree env settings json := by
  unfold Invocation.run
  cases hcommand : invocation.command with
  | structs asked changes =>
      cases hsettings : invocation.settings tree env with
      | error fault => exact .inl ⟨fault, rfl⟩
      | ok settings =>
          rcases runStructs_cases tree env settings invocation.verbose asked changes with
            ⟨fault, -, hrun⟩ | ⟨walk, notes, hwalk, -⟩
          · exact .inl ⟨fault, hrun⟩
          · exact .inr ⟨settings, _, .structs hcommand hsettings hwalk⟩
  | funcs asked =>
      cases hsettings : invocation.settings tree env with
      | error fault => exact .inl ⟨fault, rfl⟩
      | ok settings =>
          rcases runFuncs_cases tree env settings asked with ⟨fault, -, hrun⟩ | ⟨world, hworld, -⟩
          · exact .inl ⟨fault, hrun⟩
          · exact .inr ⟨settings, _, .funcs hcommand hsettings hworld⟩
  | getSetting _ | setSetting _ _ => simp [hcommand, Command.request?] at hrequest

/-- What a command for a model has built it delivers. -/
theorem run_of_builds {settings : Settings} {json : Json}
    (hrequest : invocation.command.request? = some request)
    (hbuilds : invocation.Builds tree env settings json) :
    ∃ notes, invocation.run tree env =
      deliver tree request (resultText request settings json) notes := by
  cases hbuilds with
  | @structs asked changes _ walk hcommand hsettings hwalk =>
      obtain rfl : asked = request := by simpa [hcommand, Command.request?] using hrequest
      simp only [Invocation.run, hcommand, hsettings]
      rcases runStructs_cases tree env settings invocation.verbose asked changes with
        ⟨fault, hfailed, -⟩ | ⟨found, notes, hfound, hrun⟩
      · cases hfailed.symm.trans (walkTarget_eq_ok_iff.mpr hwalk)
      · cases hfound.symm.trans hwalk
        exact ⟨notes, hrun⟩
  | @funcs asked _ world hcommand hsettings hworld =>
      obtain rfl : asked = request := by simpa [hcommand, Command.request?] using hrequest
      simp only [Invocation.run, hcommand, hsettings]
      rcases runFuncs_cases tree env settings asked with
        ⟨fault, hfailed, -⟩ | ⟨found, hfound, hrun⟩
      · cases hfailed.symm.trans hworld
      · cases hfound.symm.trans hworld
        exact ⟨[], hrun⟩

end Invocation

theorem frames_request (hrequest : invocation.command.request? = some request) :
    Frames tree request.output (invocation.run tree env) := by
  rcases Invocation.run_fails_or_builds tree env hrequest with ⟨fault, hrun⟩ |
    ⟨settings, json, hbuilds⟩
  · rw [hrun]
    exact frames_same tree _ _
  · obtain ⟨notes, hrun⟩ := Invocation.run_of_builds hrequest hbuilds
    rw [hrun]
    exact frames_deliver tree request _ notes

/-! ## Commands on settings -/

theorem frames_runGet (tree : FileTree) (path key : String) :
    Frames tree none (Command.runGet tree path key) := by
  unfold Command.runGet
  split
  · exact frames_same tree _ _
  · split <;> exact frames_same tree _ _

/-- A setting is changed by one write at the end, and this is all that can touch a file. -/
theorem frames_runSet (tree : FileTree) (path key value : String) :
    Frames tree (some path) (Command.runSet tree path key value) := by
  cases hload : Settings.loadIfPresent tree path with
  | error fault =>
      rw [Command.runSet, hload]
      exact frames_same tree _ _
  | ok settings =>
      cases hrun : Command.runSet tree path key value with
      | mk written ending =>
          rcases Settings.runSet_cases hload hrun with ⟨changed, lines, rfl, -, hsave⟩ |
            ⟨failure, rfl, rfl⟩ | ⟨changed, toml, rfl, -, -, hfailed⟩
          · obtain ⟨toml, -, hwrite⟩ := Settings.save_ok hsave
            exact ⟨fun hcode => absurd rfl hcode,
              fun _ => FileTree.sameFilesBut_writeDeep hwrite⟩
          · exact frames_same _ _ _
          · -- Directories may be left behind by the failed write, but no file.
            exact ⟨fun _ => FileTree.sameFiles_writeDeep hfailed, fun hcode => by cases hcode⟩

/-! ## Whole runs -/

theorem frames_run (invocation : Invocation) (tree : FileTree) (env : Environment) :
    Frames tree (invocation.writtenFile? env) (invocation.run tree env) := by
  unfold Invocation.writtenFile?
  cases hcommand : invocation.command with
  | structs request changes => exact frames_request (by rw [hcommand]; rfl)
  | funcs request => exact frames_request (by rw [hcommand]; rfl)
  | getSetting key =>
      rw [Invocation.run, hcommand]
      exact frames_runGet tree _ key
  | setSetting key value =>
      rw [Invocation.run, hcommand]
      exact frames_runSet tree _ key value

theorem frames_runProgram (tree : FileTree) (env : Environment) (args : List String) :
    Frames tree (writtenFile? env args) (runProgram tree env args) := by
  unfold writtenFile? runProgram
  cases Invocation.read args with
  | ok invocation => exact frames_run invocation tree env
  | error stop => cases stop <;> exact frames_same tree _ _

/-- A run that fails changes no file, and a run that succeeds changes at most the file it names:
the output file of a command for a model, the settings file when a setting is changed.  A command
for a model that succeeds has written the world built from the tree before the run, as JSON and
with a line break behind it, to its output file or else to the standard output; and it succeeds if
a world can be built and there is a place for the output file. -/
theorem runProgram_frame {args : List String} (hrun : runProgram tree env args = (after, ending)) :
    (ending.code ≠ 0 → tree.SameFiles after) ∧
    (ending.code = 0 → tree.SameFilesBut (writtenFile? env args) after) ∧
    ∀ invocation request, Invocation.read args = .ok invocation →
      invocation.command.request? = some request →
        (ending.code = 0 → ∃ settings json, invocation.Builds tree env settings json ∧
          request.Receives
            ((if settings.output.pretty && !request.compact then json.pretty else json.compact) ++
              "\n")
            (after, ending)) ∧
        ((∃ settings json, invocation.Builds tree env settings json) →
          (∀ path ∈ request.output, (tree.filePlace? path).isSome = true) → ending.code = 0) := by
  have hframes := frames_runProgram tree env args
  rw [hrun] at hframes
  refine ⟨hframes.failure, hframes.success, fun invocation request hread hrequest => ?_⟩
  simp only [runProgram, hread] at hrun
  constructor
  · intro hcode
    rcases Invocation.run_fails_or_builds tree env hrequest with ⟨fault, hfailed⟩ |
      ⟨settings, json, hbuilds⟩
    · cases hfailed.symm.trans hrun
      cases hcode
    · obtain ⟨notes, hdelivers⟩ := Invocation.run_of_builds hrequest hbuilds
      exact ⟨settings, json, hbuilds, receives_deliver (hdelivers.symm.trans hrun) hcode⟩
  · rintro ⟨settings, json, hbuilds⟩ hplace
    obtain ⟨notes, hdelivers⟩ := Invocation.run_of_builds hrequest hbuilds
    exact code_deliver (hdelivers.symm.trans hrun) hplace

/-- A directory with one file of a package. -/
def FileTree.small : FileTree where
  nodes := (Table.empty.insert "/m" .directory).insert "/m/a.go" (.file "package m\n")

/-- Arguments that ask for the model of a package in place of its file. -/
def overwriting : List String :=
  ["structs", "-t", "/m", "-o", "/m/a.go", "--compact"]

theorem runProgram_frame_overwriting :
    ∃ after, runProgram FileTree.small {} overwriting = (after, .success "" []) ∧
      FileTree.small.SameFilesBut (some "/m/a.go") after ∧
      ∃ invocation settings json, Invocation.read overwriting = .ok invocation ∧
        invocation.Builds FileTree.small {} settings json ∧
        after.read? "/m/a.go" = some (json.compact ++ "\n") := by
  have hending : (runProgram FileTree.small {} overwriting).2 = .success "" [] := by
    decide +kernel
  have hread : Invocation.read overwriting = .ok ⟨none, false, .structs
      { target := "/m", output := some "/m/a.go", compact := true } {}⟩ := by rfl
  have hwritten : writtenFile? {} overwriting = some "/m/a.go" := by
    simp only [writtenFile?, hread]
    rfl
  cases hrun : runProgram FileTree.small {} overwriting with
  | mk after ending =>
      obtain rfl : ending = .success "" [] := by rw [← hending, hrun]
      obtain ⟨-, hframe, hresult⟩ := runProgram_frame hrun
      obtain ⟨settings, json, hbuilds, hreceives⟩ := (hresult _ _ hread rfl).1 rfl
      refine ⟨after, rfl, hwritten ▸ hframe rfl, _, settings, json, hread, hbuilds, ?_⟩
      simpa [Request.Receives] using hreceives

end GoAtlas
