import Mathlib
import GoAtlas.Proofs.Walk.Runs

/-!
# A walk visits exactly its range

The depth-first search of `Walk.visit` with its cutoff computes a ball of the import
graph.  `runAll_exact` says so for any number of targets: all runs end well exactly if
every place in range can be read, the visited places are then those in range, and under
a limit the depth recorded for a place is its distance from the targets.

Nothing is visited that is not in range because what is recorded is true
(`Walk.Sound`).  Everything in range is visited because nothing is in progress at the
end (`Walk.Closed`): along a chain of imports every place is near, by induction on the
chain (`Finished.near_of_reaches`).
-/

namespace GoAtlas

/-- The least number of imports between a target and the place `key` is `n`. -/
def Codebase.IsDistance (base : Codebase) (options : WalkOptions) (targets : List String)
    (key : String) (n : Nat) : Prop :=
  IsLeast {m | base.Reaches options targets m key} n

namespace Walk

variable {base : Codebase} {options : WalkOptions} {targets : List String} {walk : Walk}
  {key : String} {n : Nat}

/-- A chain of imports within the limit leads to visited places only, and none is
deeper than the chain is long. -/
theorem Finished.near_of_reaches (hfinished : Finished base options targets targets walk)
    (hreaches : base.Reaches options targets n key) :
    options.Allows n → walk.Near options key n := by
  induction hreaches with
  | target hmem hlocate =>
      intro _
      obtain ⟨place, hlocate', hnear⟩ := hfinished.near _ hmem
      rw [hlocate] at hlocate'
      cases hlocate'
      exact hnear
  | @step n here there _ hleads ih =>
      intro hallows
      obtain ⟨visit, hvisit, hdepth⟩ := ih (hallows.mono (Nat.le_succ n))
      obtain ⟨fullName, path, place, hneeds, hresolve, hlocate, rfl⟩ := hleads
      -- The place `here` is no deeper than the chain, so its imports are followed.
      have hallowsNext : options.Allows (visit.depth + 1) := by
        rcases hdepth with hnone | hle
        · exact WalkOptions.allows_of_none hnone
        · exact hallows.mono (Nat.succ_le_succ hle)
      have hknown := hfinished.sound.known here visit hvisit
      obtain ⟨entry, hentry, rfl⟩ := (hknown.needs fullName).mpr hneeds
      rcases hfinished.closed.settled here visit hvisit with hstops | ⟨-, hsettled⟩
      · rw [WalkOptions.stopsAt_eq_false_iff.mpr hallowsNext] at hstops
        cases hstops
      · obtain ⟨place', hlocate', later, hlater, hnear⟩ := hsettled entry hentry path hresolve
        rw [hlocate] at hlocate'
        cases hlocate'
        refine ⟨later, hlater, ?_⟩
        rcases hdepth with hnone | hle
        · exact Or.inl hnone
        · exact hnear.imp_right fun hnext => hnext.trans (Nat.succ_le_succ hle)

theorem Finished.contains_iff_inRange (hfinished : Finished base options targets targets walk)
    (key : String) : walk.visited.contains key = true ↔ base.InRange options targets key := by
  constructor
  · intro hvisited
    obtain ⟨visit, hvisit⟩ := Table.contains_iff.mp hvisited
    have hknown := hfinished.sound.known key visit hvisit
    exact ⟨visit.depth, hknown.reaches, hknown.allowed⟩
  · rintro ⟨n, hreaches, hallows⟩
    obtain ⟨visit, hvisit, -⟩ := hfinished.near_of_reaches hreaches hallows
    exact Table.contains_of_get? hvisit

theorem Finished.readable (hfinished : Finished base options targets targets walk)
    (hrange : base.InRange options targets key) : base.Readable options key := by
  obtain ⟨visit, hvisit⟩ := Table.contains_iff.mp ((hfinished.contains_iff_inRange key).mpr hrange)
  exact (hfinished.sound.known key visit hvisit).readable

/-- Under a limit the depth of a visited place is its distance from the targets. -/
theorem Finished.isDistance (hfinished : Finished base options targets targets walk)
    (hlimit : options.maxDepth ≠ none) {visit : Visit}
    (hvisit : walk.visited.get? key = some visit) :
    base.IsDistance options targets key visit.depth := by
  have hknown := hfinished.sound.known key visit hvisit
  refine ⟨hknown.reaches, ?_⟩
  intro n hreaches
  -- A shorter chain would have been followed to this place at its own length.
  by_contra hlt
  have hle : n ≤ visit.depth := by omega
  obtain ⟨visit', hvisit', hdepth⟩ :=
    hfinished.near_of_reaches hreaches (hknown.allowed.mono hle)
  rw [hvisit] at hvisit'
  cases hvisit'
  exact hlt (hdepth.resolve_left hlimit)

/-- **A walk visits exactly its range.**  Where all paths denote places, all runs end
well if and only if every place in range can be read.  Then the places in range are the
visited ones, each listed once in the order of visits, and under a limit each is
recorded with its distance from the targets. -/
theorem runAll_exact (base : Codebase) (options : WalkOptions) (targets : List String)
    (hlocated : base.Located targets) :
    ((∀ outcome ∈ (runAll base options {} targets).1, outcome = .done) ↔
      ∀ key, base.InRange options targets key → base.Readable options key) ∧
    ((∀ outcome ∈ (runAll base options {} targets).1, outcome = .done) →
      (∀ key, (runAll base options {} targets).2.visited.contains key = true ↔
        base.InRange options targets key) ∧
      (∃ places : List Place,
        (runAll base options {} targets).2.order = places.map Place.path ∧
          (places.map Place.key).Nodup ∧
          ∀ key, key ∈ places.map Place.key ↔ base.InRange options targets key) ∧
      (options.maxDepth ≠ none → ∀ key visit,
        (runAll base options {} targets).2.visited.get? key = some visit →
          base.IsDistance options targets key visit.depth)) := by
  refine ⟨⟨?_, ?_⟩, ?_⟩
  · intro hdone key hrange
    exact (runAll_finished hdone).readable hrange
  · intro hreadable
    rcases runAll_ends targets {} (fun _ h => h) sound_empty closed_empty with
      ⟨hdone, -⟩ | ⟨-, hblocked⟩
    · exact hdone
    · obtain ⟨key, hrange, hunreadable⟩ := hblocked hlocated
      exact absurd (hreadable key hrange) hunreadable
  · intro hdone
    have hfinished := runAll_finished hdone
    refine ⟨hfinished.contains_iff_inRange, ?_, ?_⟩
    · obtain ⟨places, horder, hnodup, hkeys⟩ := hfinished.sound.listed
      exact ⟨places, horder, hnodup, fun key => by
        rw [← hkeys, hfinished.contains_iff_inRange]⟩
    · intro hlimit key visit hvisit
      exact hfinished.isDistance hlimit hvisit

end Walk

/-! ## A code base with a shortcut

The place `c` is first reached through `a`, too deep for its imports to be followed
under the limit, and then again straight from the target `r`.  The imports of `d` close
a cycle, and one of them leads nowhere. -/

/-- A file with a struct that refers to each of the given packages. -/
def GoFile.referring (package : String) (names : List String) : GoFile where
  package
  imports := names.map fun name => ⟨"\"" ++ name ++ "\"", none⟩
  decls := [.type ⟨"T", .struct (names.map fun name => ⟨[name], .selector name "T", none⟩) false⟩]

def Codebase.shortcutNames (key : String) : List String :=
  if key = "r" then ["a", "c"]
  else if key = "a" then ["c"]
  else if key = "c" then ["d"]
  else ["gone", "r"]

def Codebase.shortcut : Codebase where
  places := ["r", "a", "c", "d"]
  parse? := fun key => some (Package.ofFiles [(key, .referring key (shortcutNames key))])
  refusal := fun place => .notFound place.path
  locate := fun path => .ok ⟨path, path⟩
  workspace? := fun _ => none
  system? := fun name => if name = "gone" then none else some name
  fullName? := fun _ => none

theorem Codebase.shortcut_located (targets : List String) : shortcut.Located targets :=
  ⟨fun _ _ => ⟨_, rfl⟩, fun _ _ _ => ⟨_, rfl⟩⟩

/-- A limit under which `d` is found through the shortcut only. -/
def WalkOptions.shortcut : WalkOptions where
  exclude := []
  maxDepth := some 2

set_option maxRecDepth 4000 in
/-- The shortcut is found: `d` is visited, and recorded with its distance. -/
theorem Walk.runAll_exact_shortcut :
    Codebase.shortcut.Located ["r"] ∧
      (∀ outcome ∈ (runAll .shortcut .shortcut {} ["r"]).1, outcome = .done) ∧
      Codebase.shortcut.IsDistance .shortcut ["r"] "d" 2 := by
  have hrun : ((runAll .shortcut .shortcut {} ["r"]).1,
      ((runAll .shortcut .shortcut {} ["r"]).2.visited.get? "d").map Visit.depth) =
        ([.done], some 2) := by cbv
  have hdone : ∀ outcome ∈ (runAll .shortcut .shortcut {} ["r"]).1, outcome = .done := by
    rw [(Prod.ext_iff.mp hrun).1]
    simp
  obtain ⟨visit, hvisit, hdepth⟩ := Option.map_eq_some_iff.mp (Prod.ext_iff.mp hrun).2
  have hexact := runAll_exact .shortcut .shortcut ["r"] (Codebase.shortcut_located ["r"])
  have hdistance := (hexact.2 hdone).2.2 (by simp [WalkOptions.shortcut]) "d" visit hvisit
  rw [hdepth] at hdistance
  exact ⟨Codebase.shortcut_located ["r"], hdone, hdistance⟩

end GoAtlas
