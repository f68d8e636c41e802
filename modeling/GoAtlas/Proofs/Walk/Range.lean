import GoAtlas.Walk.Basic
import GoAtlas.Proofs.Table
import Mathlib.Order.Bounds.Basic

/-!
# The range of a walk

A code base is a graph whose nodes are places: a place leads to another if a file
there needs an import that is found at the other.  This file says what that graph
is and which of its places a walk has to visit, without reference to how the walk
goes about it: those at most `WalkOptions.maxDepth` imports away from a target
(`Codebase.InRange`).

Only what collecting gives enters the graph, so everything here is stated for
the keys of places.
-/

namespace GoAtlas

/-- The number of imports between a target and a place is no more than the limit. -/
def WalkOptions.Allows (options : WalkOptions) (depth : Nat) : Prop :=
  ∀ limit, options.maxDepth = some limit → depth ≤ limit

namespace Codebase

variable (base : Codebase) (options : WalkOptions)

/-- A file of a package that is not excluded, found at the place `key`, collects to
`collected`. -/
def Contributes (key package fileName : String) (collected : Collected) : Prop :=
  ∃ packages file, base.packages? key = some packages ∧
    (package, fileName, file) ∈ options.files packages ∧ file.collect fileName = .ok collected

/-- The place can be parsed, and its files that are not excluded can be collected. -/
def Readable (key : String) : Prop :=
  ∃ packages, base.packages? key = some packages ∧
    ∀ package fileName file, (package, fileName, file) ∈ options.files packages →
      ∃ collected, file.collect fileName = .ok collected

/-- A file at the place `key` needs the import path `fullName`. -/
def Needs (key fullName : String) : Prop :=
  ∃ package fileName collected, base.Contributes options key package fileName collected ∧
    ∃ entry ∈ collected.file.imports.values, entry.needed = true ∧ entry.fullName = fullName

/-- A file at the place `here` needs an import that is found at `there`. -/
def Leads (here there : String) : Prop :=
  ∃ fullName path place, base.Needs options here fullName ∧
    base.resolve? fullName = some path ∧ base.locate path = .ok place ∧ place.key = there

/-- `Reaches targets n key`: a chain of `n` imports goes from a target to the place
`key`. -/
inductive Reaches (targets : List String) : Nat → String → Prop where
  | target {target : String} {place : Place} (hmem : target ∈ targets)
      (hlocate : base.locate target = .ok place) : Reaches targets 0 place.key
  | step {n : Nat} {here there : String} (hhere : Reaches targets n here)
      (hleads : base.Leads options here there) : Reaches targets (n + 1) there

/-- The place is reached within the limit; without a limit, it is reached at all. -/
def InRange (targets : List String) (key : String) : Prop :=
  ∃ n, base.Reaches options targets n key ∧ options.Allows n

/-- Every path that a walk can be asked to visit denotes a place: the targets, and
what imports lead to. -/
def Located (targets : List String) : Prop :=
  (∀ target ∈ targets, ∃ place, base.locate target = .ok place) ∧
    ∀ fullName path, base.resolve? fullName = some path → ∃ place, base.locate path = .ok place

end Codebase

/-- Walks targets one after another, whether the earlier ones end well or not. -/
def Walk.runAll (base : Codebase) (options : WalkOptions) (walk : Walk) :
    List String → List Outcome × Walk
  | [] => ([], walk)
  | target :: rest =>
      let (outcome, walk) := walk.run base options target
      let (outcomes, walk) := walk.runAll base options rest
      (outcome :: outcomes, walk)

/-! ## The limit -/

namespace WalkOptions

variable {options : WalkOptions} {depth : Nat}

theorem allows_of_none (hdepth : options.maxDepth = none) : options.Allows depth := by
  intro limit hlimit
  rw [hdepth] at hlimit
  cases hlimit

theorem Allows.mono {smaller : Nat} (hallows : options.Allows depth) (hle : smaller ≤ depth) :
    options.Allows smaller :=
  fun limit hlimit => hle.trans (hallows limit hlimit)

theorem stopsAt_eq_false_iff : options.stopsAt depth = false ↔ options.Allows (depth + 1) := by
  unfold stopsAt Allows
  cases options.maxDepth with
  | none => simp
  | some limit =>
      simp only [decide_eq_false_iff_not, Option.some.injEq, forall_eq']
      omega

end WalkOptions

end GoAtlas
