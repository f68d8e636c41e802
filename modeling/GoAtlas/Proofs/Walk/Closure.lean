import GoAtlas.Proofs.Collect.References
import GoAtlas.Proofs.Walk.Exactness

/-!
# No reference is left dangling

Without a limit, a walk that ends well accounts for every reference in the world it
builds: the import behind a selector in a stored file leads to a visited place, or it has
been reported as leading nowhere, under the path of a place that the file comes from
(`Walk.runAll_references`).

The argument goes from the file outwards.  A stored file comes from a visited place
(`Walk.Sound`) and is marked (`FileModel.Marked`), so its place needs the import; what
a place needs is what its visit has recorded (`Visit.Known`); and nothing recorded
is left to be done (`Walk.Closed`).
-/

namespace GoAtlas.Walk

variable {base : Codebase} {options : WalkOptions} {targets : List String} {walk : Walk}
  {key fullName : String}

/-- The import path leads to a visited place, or is reported as leading nowhere under a
path of the place `key`. -/
def Accounted (base : Codebase) (walk : Walk) (key fullName : String) : Prop :=
  (∃ path, base.resolve? fullName = some path ∧ walk.isVisited base path = true) ∨
    ∃ path place, base.locate path = .ok place ∧ place.key = key ∧ place.path ∈ walk.order ∧
      ∃ report ∈ walk.diagnostics, report.kind = .unresolvedImport ∧
        report.subject = fullName ∧ report.file = place.path

/-- What a visited place needs is accounted for. -/
theorem Finished.accounted (hfinished : Finished base options targets targets walk)
    (hdepth : options.maxDepth = none) (hvisited : walk.visited.contains key = true)
    (hneeds : base.Needs options key fullName) : Accounted base walk key fullName := by
  obtain ⟨visit, hvisit⟩ := Table.contains_iff.mp hvisited
  obtain ⟨entry, hentry, rfl⟩ :=
    ((hfinished.sound.known key visit hvisit).needs fullName).mpr hneeds
  -- Without a limit there is no place where imports are not followed.
  have hgoes : options.stopsAt visit.depth = false :=
    WalkOptions.stopsAt_eq_false_iff.mpr (WalkOptions.allows_of_none hdepth)
  rcases hfinished.closed.settled key visit hvisit with hstops | ⟨hfollowed, hsettled⟩
  · rw [hgoes] at hstops
    cases hstops
  cases hresolve : base.resolve? entry.fullName with
  | some path =>
      obtain ⟨place, hlocate, later, hlater, -⟩ := hsettled entry hentry path hresolve
      refine Or.inl ⟨path, hresolve, ?_⟩
      rw [isVisited, hlocate]
      exact Table.contains_of_get? hlater
  | none =>
      obtain ⟨path, place, hlocate, hkey, horder, hreports⟩ :=
        hfinished.closed.reported key visit hvisit hfollowed
      exact Or.inr ⟨path, place, hlocate, hkey, horder hdepth,
        _, hreports entry hentry hresolve, rfl, rfl, rfl⟩

/-- **No reference is left dangling.**  After runs without a limit that all end well, the
marks are complete: an import behind a selector in a stored file is needed, and it leads to a
visited place or is reported under the path of a visited place that the file comes from. -/
theorem runAll_references (base : Codebase) (options : WalkOptions) (targets : List String)
    (hdepth : options.maxDepth = none)
    (hdone : ∀ outcome ∈ (runAll base options {} targets).1, outcome = .done)
    {package fileName : String} {module : GoModule FileModel} {file : FileModel}
    (hmodule : (runAll base options {} targets).2.world.modules.get? package = some module)
    (hfile : module.files.get? fileName = some file)
    {type : GoType} (htype : type ∈ file.types) {imported name : String}
    (hselector : (imported, name) ∈ type.selectors) {entry : Import}
    (hentry : file.imports.get? imported = some entry) :
    entry.needed = true ∧ ∃ key collected,
      (runAll base options {} targets).2.visited.contains key = true ∧
        base.Contributes options key package fileName collected ∧ collected.file = file ∧
          Accounted base (runAll base options {} targets).2 key entry.fullName := by
  have hfinished := runAll_finished hdone
  have hstored : (runAll base options {} targets).2.world.file? package fileName = some file := by
    rw [World.file?, hmodule, Option.bind_some, hfile]
  obtain ⟨key, collected, hvisited, hcontributes, rfl⟩ :=
    hfinished.sound.stored package fileName file hstored
  have hneeded : entry.needed = true := by
    obtain ⟨packages, source, -, -, hcollect⟩ := hcontributes
    exact GoFile.collect_marked hcollect type htype imported name hselector entry hentry
  refine ⟨hneeded, key, collected, hvisited, hcontributes, rfl, ?_⟩
  exact hfinished.accounted hdepth hvisited
    ⟨package, fileName, collected, hcontributes, entry, Table.mem_values_of_get? hentry,
      hneeded, rfl⟩

set_option maxRecDepth 4000 in
/-- The file at `d` refers to a package that leads nowhere, and this is reported. -/
theorem runAll_references_shortcut :
    (∀ outcome ∈ (runAll .shortcut { exclude := [] } {} ["d"]).1, outcome = .done) ∧
      ∃ report ∈ (runAll .shortcut { exclude := [] } {} ["d"]).2.diagnostics,
        report.kind = .unresolvedImport ∧ report.subject = "gone" := by
  have hrun : ((runAll .shortcut { exclude := [] } {} ["d"]).1,
      ((runAll .shortcut { exclude := [] } {} ["d"]).2.world.modules.get? "d").bind fun module =>
        (module.files.get? "d").map fun file =>
          (file.types.flatMap GoType.selectors, file.imports.get? "gone")) =
        ([.done], some ([("gone", "T"), ("r", "T")], some ⟨"gone", "gone", true⟩)) := by cbv
  have hdone : ∀ outcome ∈ (runAll .shortcut { exclude := [] } {} ["d"]).1, outcome = .done := by
    rw [(Prod.ext_iff.mp hrun).1]
    simp
  obtain ⟨module, hmodule, hfiles⟩ := Option.bind_eq_some_iff.mp (Prod.ext_iff.mp hrun).2
  obtain ⟨file, hfile, hshown⟩ := Option.map_eq_some_iff.mp hfiles
  obtain ⟨hselectors, hentry⟩ := Prod.mk.inj hshown
  obtain ⟨type, htype, hselector⟩ : ∃ type ∈ file.types, ("gone", "T") ∈ type.selectors := by
    rw [← List.mem_flatMap, hselectors]
    exact List.mem_cons_self ..
  obtain ⟨-, key, collected, -, -, -, haccounted⟩ :=
    runAll_references .shortcut { exclude := [] } ["d"] rfl hdone hmodule hfile htype hselector
      hentry
  refine ⟨hdone, ?_⟩
  rcases haccounted with ⟨path, hresolve, -⟩ |
    ⟨path, place, -, -, -, report, hreport, hkind, hsubject, -⟩
  · simp [Codebase.resolve?, Codebase.shortcut] at hresolve
  · exact ⟨report, hreport, hkind, hsubject⟩

end GoAtlas.Walk
