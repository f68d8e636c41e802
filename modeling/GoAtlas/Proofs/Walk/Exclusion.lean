import GoAtlas.Proofs.Walk.Nesting

/-!
# Excluded packages have no influence

An excluded package is passed over before its files are collected, so nothing in it can make a
walk fail, report, store or follow anything.  `runAll_agree` says so by comparing two code bases
that differ in excluded packages only (`Codebase.Agree`): all runs give the same outcomes and the
same walks.

What depends on a code base in a visit is how it arrives at a place (`arrive`), and there the
two agree (`Codebase.Agree.arrive`).  A course over one is therefore a course over the other.
The runs themselves are bounded by the number of places, which need not be the same, so they are
compared through their courses.
-/

namespace GoAtlas

/-- The packages that are not excluded, under their names. -/
def WalkOptions.remaining (options : WalkOptions) (packages : Table Package) :
    List (String × Package) :=
  packages.entries.filter fun entry => !options.exclude.contains entry.1

/-- Two code bases differ at most in excluded packages: the same places can be parsed, with the
same packages besides excluded ones, and paths and imports mean the same. -/
structure Codebase.Agree (options : WalkOptions) (base other : Codebase) : Prop where
  packages : ∀ key, (other.packages? key).map options.remaining =
    (base.packages? key).map options.remaining
  refusal : ∀ place, base.packages? place.key = none → other.refusal place = base.refusal place
  locate : ∀ path, other.locate path = base.locate path
  workspace? : ∀ fullName, other.workspace? fullName = base.workspace? fullName
  system? : ∀ fullName, other.system? fullName = base.system? fullName
  fullName? : ∀ fileName, other.fullName? fileName = base.fullName? fileName

variable {base other : Codebase} {options : WalkOptions}

theorem WalkOptions.files_eq_of_remaining {packages packages' : Table Package}
    (hremaining : options.remaining packages' = options.remaining packages) :
    options.files packages' = options.files packages := by
  unfold files
  unfold remaining at hremaining
  rw [hremaining]

namespace Codebase.Agree

open Walk

theorem resolve? (hagree : base.Agree options other) (fullName : String) :
    other.resolve? fullName = base.resolve? fullName := by
  unfold Codebase.resolve?
  rw [hagree.workspace?, hagree.system?]

theorem collectFiles (hagree : base.Agree options other) (walk : Walk) (needed : Table Import)
    (files : List (String × String × GoFile)) :
    Walk.collectFiles other options walk needed files =
      Walk.collectFiles base options walk needed files := by
  induction files generalizing walk needed with
  | nil => rfl
  | cons source rest ih =>
      obtain ⟨package, fileName, file⟩ := source
      simp only [Walk.collectFiles]
      cases file.collect fileName with
      | error fault => rfl
      | ok collected =>
          simp only
          rw [ih]
          unfold store
          rw [hagree.fullName?]

theorem arrive (hagree : base.Agree options other) (depth : Nat) (path : String) (walk : Walk) :
    Walk.arrive other options depth path walk = Walk.arrive base options depth path walk := by
  unfold Walk.arrive
  rw [hagree.locate]
  cases base.locate path with
  | error fault => rfl
  | ok place =>
      simp only
      cases walk.visited.get? place.key with
      | some known => rfl
      | none =>
          have hpackages := hagree.packages place.key
          simp only
          cases hbase : base.packages? place.key with
          | none =>
              rw [hbase, Option.map_none, Option.map_eq_none_iff] at hpackages
              rw [hpackages, hagree.refusal place hbase]
          | some packages =>
              rw [hbase, Option.map_some, Option.map_eq_some_iff] at hpackages
              obtain ⟨packages', hother, hremaining⟩ := hpackages
              rw [hother]
              simp only
              rw [WalkOptions.files_eq_of_remaining hremaining, hagree.collectFiles]

/-- A course over one code base is a course over the other. -/
theorem course (hagree : base.Agree options other) {around : List Place} {task : Task}
    {walk : Walk} {calls : List Call} {result : Outcome × Walk}
    (hcourse : Course base options around task walk calls result) :
    Course other options around task walk calls result := by
  induction hcourse with
  | ends harrive => exact .ends (by rw [hagree.arrive, harrive])
  | stops harrive hstops => exact .stops (by rw [hagree.arrive, harrive]) hstops
  | goesOn harrive hgoes _ ih => exact .goesOn (by rw [hagree.arrive, harrive]) hgoes ih
  | served => exact .served
  | nowhere hresolve _ ih => exact .nowhere (by rw [hagree.resolve?, hresolve]) ih
  | next hresolve _ _ ihVisit ihRest =>
      exact .next (by rw [hagree.resolve?, hresolve]) ihVisit ihRest
  | interrupted hresolve _ ih => exact .interrupted (by rw [hagree.resolve?, hresolve]) ih

theorem run (hagree : base.Agree options other) (walk : Walk) (target : String) :
    walk.run other options target = walk.run base options target := by
  obtain ⟨calls, hbase⟩ := @run_course base options walk target
  obtain ⟨calls', hother⟩ := @run_course other options walk target
  exact ((hagree.course hbase).unique hother).2

end Codebase.Agree

namespace Walk

/-- **Excluded packages have no influence.**  Over two code bases that agree apart from excluded
packages, any targets walked one after another end in the same way and leave the same walk: the
same visited places in the same order, the same world and the same diagnostics. -/
theorem runAll_agree (hagree : base.Agree options other) (walk : Walk) (targets : List String) :
    walk.runAll other options targets = walk.runAll base options targets := by
  induction targets generalizing walk with
  | nil => rfl
  | cons target rest ih => simp only [runAll, hagree.run, ih]

end Walk

/-! ## A code base with litter -/

/-- A file that cannot be collected, and that would need an import if it could. -/
def GoFile.litter : GoFile where
  package := "litter"
  imports := [⟨"\"gone\"", none⟩]
  decls := [.type ⟨"T", .struct [⟨[], .unsupported "union", none⟩] true⟩,
    .type ⟨"U", .struct [⟨["gone"], .selector "gone" "T", some "`x:\"\\q\"`"⟩] false⟩]

/-- The code base with a shortcut, with a second package at each place. -/
def Codebase.littered : Codebase :=
  { shortcut with
    parse? := fun key => some (Package.ofFiles
      [(key, .referring key (shortcutNames key)), ("litter.go", .litter)]) }

theorem Codebase.shortcut_agree_littered (maxDepth : Option Nat) :
    shortcut.Agree { exclude := ["litter"], maxDepth } littered where
  packages := by
    intro key
    by_cases hplace : key ∈ shortcut.places
    · simp only [shortcut, List.mem_cons, List.not_mem_nil, or_false] at hplace
      rcases hplace with rfl | rfl | rfl | rfl <;> cbv
    · have hnone : shortcut.packages? key = none := by
        simp [packages?, hplace]
      have hnone' : littered.packages? key = none := by
        have hplaces : littered.places = shortcut.places := rfl
        simp [packages?, hplaces, hplace]
      rw [hnone, hnone']
  refusal := fun _ _ => rfl
  locate := fun _ => rfl
  workspace? := fun _ => rfl
  system? := fun _ => rfl
  fullName? := fun _ => rfl

/-- The litter makes a walk fail, but not when it is excluded. -/
theorem Walk.runAll_agree_littered :
    Codebase.shortcut.Agree { exclude := ["litter"] } .littered ∧
      (runAll .littered { exclude := [] } {} ["r"]).1 = [.failed (.incompleteStruct "T")] ∧
      (runAll .littered { exclude := ["litter"] } {} ["r"]).1 = [.done] := by
  have hagree := Codebase.shortcut_agree_littered none
  have hsame : runAll .littered { exclude := ["litter"] } {} ["r"] =
      runAll .shortcut { exclude := ["litter"] } {} ["r"] := runAll_agree hagree {} ["r"]
  refine ⟨hagree, by cbv, ?_⟩
  rw [hsame]
  cbv

end GoAtlas
