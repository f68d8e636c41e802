import GoAtlas.Proofs.Walk.Nesting
import GoAtlas.Proofs.Walk.Reports

/-!
# What a successful run has visited

Without a limit a run that ends well has visited everything its target requires, as long as
no earlier run has failed.  A failure leaves its traces: the places on the way to the fault are
recorded, and marked as followed, before their imports are gone through, and they stay recorded
when the walk is given up.  A later run that comes to such a place passes over it and ends well,
although what is behind the place may never have been visited.

`run_complete` says how far this goes.  Each run that fails breaks at one chain of imports
(`Codebase.Breaks`), and all other places that it has entered are as complete as after a
success (`Leaves`).  A run that ends well therefore misses something exactly if its target
requires a place on the chain of an earlier failure.

A place is entered at most once without a limit, so what becomes of it is settled in the part of
the search in which it is entered.  The induction is on the course of the search.
-/

namespace GoAtlas

/-! ## What a target requires -/

namespace Codebase

variable (base : Codebase) (options : WalkOptions)

/-- The paths that a target requires: itself, and what imports needed there lead to. -/
inductive Requires (target : String) : String → Prop where
  | target : Requires target target
  | step {path fullName next : String} {place : Place} (hpath : Requires target path)
      (hlocate : base.locate path = .ok place)
      (hneeds : base.Needs options place.key fullName)
      (hresolve : base.resolve? fullName = some next) : Requires target next

/-- No place that can be read is found under the path. -/
def Unavailable (path : String) : Prop :=
  ∀ place, base.locate path = .ok place → ¬ base.Readable options place.key

/-- `Breaks path chain`: from `path`, imports lead through the places in `chain` to a path that
is not available. -/
inductive Breaks : String → List String → Prop where
  | here {path : String} (hunavailable : base.Unavailable options path) : Breaks path []
  | behind {path fullName next : String} {place : Place} {chain : List String}
      (hlocate : base.locate path = .ok place)
      (hneeds : base.Needs options place.key fullName)
      (hresolve : base.resolve? fullName = some next) (hnext : Breaks next chain) :
      Breaks path (place.key :: chain)

variable {base options} {target path middle last : String} {place : Place} {chain : List String}

theorem Requires.trans (hfirst : base.Requires options target middle)
    (hlater : base.Requires options middle path) : base.Requires options target path := by
  induction hlater with
  | target => exact hfirst
  | step _ hlocate hneeds hresolve ih => exact .step ih hlocate hneeds hresolve

/-- What a place requires depends on its key only. -/
theorem Requires.of_key {fullName next : String} (hlocate : base.locate path = .ok place)
    (hneeds : base.Needs options place.key fullName) (hresolve : base.resolve? fullName = some next)
    (hlast : base.Requires options next last) : base.Requires options path last :=
  .trans (.step .target hlocate hneeds hresolve) hlast

theorem Breaks.unavailable (hbreaks : base.Breaks options path chain) :
    ∃ last, base.Requires options path last ∧ base.Unavailable options last := by
  induction hbreaks with
  | here hunavailable => exact ⟨_, .target, hunavailable⟩
  | behind hlocate hneeds hresolve _ ih =>
      obtain ⟨last, hlast, hunavailable⟩ := ih
      exact ⟨last, .of_key hlocate hneeds hresolve hlast, hunavailable⟩

/-- Every place on a chain that breaks requires what is not available. -/
theorem Breaks.unavailable_of_mem (hbreaks : base.Breaks options path chain)
    (hmiddle : base.locate middle = .ok place) (hmem : place.key ∈ chain) :
    ∃ last, base.Requires options middle last ∧ base.Unavailable options last := by
  induction hbreaks with
  | here _ => simp at hmem
  | behind hlocate hneeds hresolve hnext ih =>
      rcases List.mem_cons.mp hmem with hkey | hmem
      · obtain ⟨last, hlast, hunavailable⟩ := hnext.unavailable
        exact ⟨last, .of_key hmiddle (hkey ▸ hneeds) hresolve hlast, hunavailable⟩
      · exact ih hmem

theorem breaks_of_mem {failed : List String} {chains : List (List String)}
    (hbreaks : List.Forall₂ (base.Breaks options) failed chains) (hmem : chain ∈ chains) :
    ∃ path ∈ failed, base.Breaks options path chain := by
  induction hbreaks with
  | nil => simp at hmem
  | @cons path first _ _ hfirst _ ih =>
      rcases List.mem_cons.mp hmem with rfl | hmem
      · exact ⟨path, List.mem_cons_self .., hfirst⟩
      · obtain ⟨other, hother, hbreak⟩ := ih hmem
        exact ⟨other, List.mem_cons_of_mem _ hother, hbreak⟩

end Codebase

namespace Walk

/-! ## What a part of the search leaves behind -/

/-- Every path that an import needed at the place `key` leads to is visited. -/
def Covered (base : Codebase) (options : WalkOptions) (walk : Walk) (key : String) : Prop :=
  ∀ fullName path, base.Needs options key fullName → base.resolve? fullName = some path →
    walk.isVisited base path = true

/-- The place `key` is visited in `after`, and no other that is not visited in `before`. -/
def Entered (after before : Walk) (key : String) : Prop :=
  ∀ other, after.visited.contains other = true ↔
    before.visited.contains other = true ∨ other = key

/-- A place that is visited in `after` and not in `before` can be read, and what it leads to is
visited too, unless it is on the chain. -/
def Leaves (base : Codebase) (options : WalkOptions) (chain : List String) (before after : Walk) :
    Prop :=
  ∀ key, after.visited.contains key = true → before.visited.contains key = true ∨
    base.Readable options key ∧ (key ∈ chain ∨ after.Covered base options key)

variable {base : Codebase} {options : WalkOptions} {before middle after walk : Walk}
  {chain : List String} {place : Place} {key path : String}

theorem isVisited_iff : walk.isVisited base path = true ↔
    ∃ place, base.locate path = .ok place ∧ walk.visited.contains place.key = true := by
  unfold isVisited
  cases base.locate path with
  | error fault => simp
  | ok place => simp

theorem Outgrows.isVisited (houtgrows : after.Outgrows before)
    (hpath : before.isVisited base path = true) : after.isVisited base path = true := by
  obtain ⟨place, hlocate, hvisited⟩ := isVisited_iff.mp hpath
  exact isVisited_iff.mpr ⟨place, hlocate, houtgrows place.key hvisited⟩

theorem Covered.mono (hcovered : before.Covered base options key)
    (houtgrows : after.Outgrows before) : after.Covered base options key :=
  fun fullName path hneeds hresolve =>
    houtgrows.isVisited (hcovered fullName path hneeds hresolve)

namespace Leaves

theorem of_eq (hvisited : after.visited = before.visited) :
    Leaves base options chain before after :=
  fun key hkey => Or.inl (by rw [← hvisited]; exact hkey)

theorem congr (hleaves : Leaves base options chain middle after)
    (hvisited : middle.visited = before.visited) : Leaves base options chain before after := by
  unfold Leaves at hleaves ⊢
  rwa [hvisited] at hleaves

theorem mono (hleaves : Leaves base options chain before after) {more : List String}
    (hsubset : chain ⊆ more) : Leaves base options more before after := by
  intro key hkey
  rcases hleaves key hkey with hbefore | ⟨hreadable, hchain | hcovered⟩
  · exact Or.inl hbefore
  · exact Or.inr ⟨hreadable, Or.inl (hsubset hchain)⟩
  · exact Or.inr ⟨hreadable, Or.inr hcovered⟩

/-- The parts of a search one after another. -/
theorem trans (hfirst : Leaves base options chain before middle)
    (hlater : Leaves base options chain middle after) (houtgrows : after.Outgrows middle) :
    Leaves base options chain before after := by
  intro key hkey
  rcases hlater key hkey with hmiddle | hsettled
  · rcases hfirst key hmiddle with hbefore | ⟨hreadable, hchain | hcovered⟩
    · exact Or.inl hbefore
    · exact Or.inr ⟨hreadable, Or.inl hchain⟩
    · exact Or.inr ⟨hreadable, Or.inr (hcovered.mono houtgrows)⟩
  · exact Or.inr hsettled

/-- The part of a search in which a place is entered. -/
theorem of_enter (hleaves : Leaves base options chain middle after)
    (henter : middle.Entered before place.key)
    (hreadable : base.Readable options place.key)
    (hplace : place.key ∈ chain ∨ after.Covered base options place.key) :
    Leaves base options chain before after := by
  intro key hkey
  rcases hleaves key hkey with hmiddle | hsettled
  · rcases (henter key).mp hmiddle with hbefore | rfl
    · exact Or.inl hbefore
    · exact Or.inr ⟨hreadable, hplace⟩
  · exact Or.inr hsettled

end Leaves

/-- What a task was to visit is visited. -/
def Task.Served (base : Codebase) (task : Task) (walk : Walk) : Prop :=
  match task with
  | .visit _ path => walk.isVisited base path = true
  | .follow _ _ _ imports => ∀ entry ∈ imports, ∀ path,
      base.resolve? entry.fullName = some path → walk.isVisited base path = true

/-- A task leads through a chain of places to a path that is not available. -/
def Task.Breaks (base : Codebase) (options : WalkOptions) (task : Task) (chain : List String) :
    Prop :=
  match task with
  | .visit _ path => base.Breaks options path chain
  | .follow _ _ _ imports => ∃ entry ∈ imports, ∃ path,
      base.resolve? entry.fullName = some path ∧ base.Breaks options path chain

/-- What is known when a task has ended. -/
def Task.Concludes (base : Codebase) (options : WalkOptions) (task : Task) (before : Walk) :
    Outcome × Walk → Prop
  | (.done, after) => task.Served base after ∧ Leaves base options [] before after
  | (.failed _, after) =>
      ∃ chain, task.Breaks base options chain ∧ Leaves base options chain before after
  | (.exhausted, _) => False

namespace Course

variable {around : List Place} {task : Task} {calls : List Call} {result : Outcome × Walk}
  {depth : Nat} {visit : Visit}

/-- A visit that enters a place concludes as the following of its imports does. -/
theorem concludes_enter {report : Bool} (hlocate : base.locate path = .ok place)
    (hreadable : base.Readable options place.key)
    (himports : ∀ fullName, (∃ entry ∈ visit.imports.values, entry.fullName = fullName) ↔
      base.Needs options place.key fullName)
    (henter : middle.Entered walk place.key) (houtgrows : result.2.Outgrows middle)
    (hfollow : (Task.follow place depth report visit.imports.values).Concludes base options
      middle result) :
    (Task.visit depth path).Concludes base options walk result := by
  obtain ⟨outcome, after⟩ := result
  cases outcome with
  | exhausted => exact hfollow
  | done =>
      obtain ⟨hserved, hleaves⟩ := hfollow
      have hcovered : after.Covered base options place.key := by
        intro fullName next hneeds hresolve
        obtain ⟨entry, hentry, rfl⟩ := (himports fullName).mpr hneeds
        exact hserved entry hentry next hresolve
      have hkey : middle.visited.contains place.key = true := (henter place.key).mpr (Or.inr rfl)
      exact ⟨isVisited_iff.mpr ⟨place, hlocate, houtgrows place.key hkey⟩,
        hleaves.of_enter henter hreadable (Or.inr hcovered)⟩
  | failed fault =>
      obtain ⟨chain, ⟨entry, hentry, next, hresolve, hbreaks⟩, hleaves⟩ := hfollow
      have hneeds := (himports entry.fullName).mp ⟨entry, hentry, rfl⟩
      exact ⟨place.key :: chain, .behind hlocate hneeds hresolve hbreaks,
        (hleaves.mono (List.subset_cons_self _ _)).of_enter henter hreadable
          (Or.inl (List.mem_cons_self ..))⟩

/-- Once the first import is served, all of them are followed as the rest is. -/
theorem concludes_rest {report : Bool} {entry : Import} {rest : List Import}
    (hentry : ∀ path, base.resolve? entry.fullName = some path →
      result.2.isVisited base path = true)
    (hleaves : ∀ chain, Leaves base options chain middle result.2 →
      Leaves base options chain walk result.2)
    (hrest : (Task.follow place depth report rest).Concludes base options middle result) :
    (Task.follow place depth report (entry :: rest)).Concludes base options walk result := by
  obtain ⟨outcome, after⟩ := result
  cases outcome with
  | exhausted => exact hrest
  | done =>
      obtain ⟨hserved, hlater⟩ := hrest
      exact ⟨List.forall_mem_cons.mpr ⟨hentry, hserved⟩, hleaves [] hlater⟩
  | failed fault =>
      obtain ⟨chain, ⟨other, hother, hbreaks⟩, hlater⟩ := hrest
      exact ⟨chain, ⟨other, List.mem_cons_of_mem _ hother, hbreaks⟩, hleaves chain hlater⟩

/-- Without a limit every part of the search concludes. -/
theorem concludes (hunlimited : options.maxDepth = none)
    (hcourse : Course base options around task walk calls result) :
    task.Concludes base options walk result := by
  induction hcourse with
  | @ends _ depth path walk result harrive =>
      have harrives := @arrive_arrives base options walk depth path
      rw [harrive] at harrives
      cases harrives with
      | unlocated hlocate =>
          refine ⟨[], .here fun place hplace => ?_, .of_eq rfl⟩
          rw [hlocate] at hplace
          cases hplace
      | returns hlocate hvisit =>
          exact ⟨isVisited_iff.mpr ⟨_, hlocate, Table.contains_of_get? hvisit⟩, .of_eq rfl⟩
      | refused hlocate hrefused hvisited =>
          refine ⟨[], .here fun place hplace => ?_, .of_eq hvisited⟩
          rw [hlocate] at hplace
          cases hplace
          exact hrefused
  | stops _ hstops => simp [WalkOptions.stopsAt, hunlimited] at hstops
  | @goesOn _ depth path walk middle place visit _ _ harrive _ hfollow ih =>
      have harrives := @arrive_arrives base options walk depth path
      rw [harrive] at harrives
      cases harrives with
      | approaches _ _ hlimit => exact absurd hunlimited hlimit
      | enters hlocate _ hreadable himports hvisited =>
          have henter : (middle.setVisit place { visit with followed := true }).Entered walk
              place.key := by
            intro other
            rw [setVisit_visited, hvisited, Table.contains_insert, Table.contains_insert]
            simp [or_comm]
          exact concludes_enter hlocate hreadable himports henter hfollow.outgrows ih
  | served => exact ⟨by simp [Task.Served], .of_eq rfl⟩
  | @nowhere _ depth walk place report entry rest calls result hresolve hrest ih =>
      refine concludes_rest (fun path hpath => ?_)
        (fun _ hleaves => hleaves.congr (by split <;> rfl)) ih
      rw [hresolve] at hpath
      cases hpath
  | @next _ depth path walk middle place report entry rest _ _ result hresolve _ hrest ihVisit
      ihRest =>
      obtain ⟨hvisited, hfirst⟩ := ihVisit
      have houtgrows : result.2.Outgrows middle := hrest.outgrows
      refine concludes_rest (fun other hother => ?_)
        (fun _ hleaves => (hfirst.mono (List.nil_subset _)).trans hleaves houtgrows) ihRest
      rw [hresolve] at hother
      cases hother
      exact houtgrows.isVisited hvisited
  | @interrupted _ _ path _ _ _ _ entry _ _ _ hresolve _ ih =>
      obtain ⟨chain, hbreaks, hleaves⟩ := ih
      exact ⟨chain, ⟨entry, List.mem_cons_self .., path, hresolve, hbreaks⟩, hleaves⟩

end Course

/-! ## Runs -/

theorem run_concludes (hunlimited : options.maxDepth = none) (target : String) :
    (Task.visit 0 target).Concludes base options walk (walk.run base options target) := by
  obtain ⟨calls, hcourse⟩ := @run_course base options walk target
  exact hcourse.concludes hunlimited

/-- The targets whose runs did not end well. -/
def failures (targets : List String) (outcomes : List Outcome) : List String :=
  ((targets.zip outcomes).filter fun run => run.2 != .done).map Prod.fst

/-- Each run that fails breaks at a chain of places, and what else it has entered is complete. -/
theorem runAll_leaves (hunlimited : options.maxDepth = none) (targets : List String) :
    ∀ walk : Walk, ∃ chains,
      List.Forall₂ (base.Breaks options) (failures targets (walk.runAll base options targets).1)
        chains ∧
      Leaves base options chains.flatten walk (walk.runAll base options targets).2 ∧
      (walk.runAll base options targets).2.Outgrows walk := by
  induction targets with
  | nil => exact fun walk => ⟨[], .nil, .of_eq rfl, .of_eq rfl⟩
  | cons target rest ih =>
      intro walk
      have hconcludes := @run_concludes base options walk hunlimited target
      have houtgrows := @run_outgrows base options walk target
      simp only [runAll]
      generalize walk.run base options target = ended at hconcludes houtgrows
      obtain ⟨outcome, middle⟩ := ended
      obtain ⟨chains, hbreaks, hleaves, hmore⟩ := ih middle
      cases outcome with
      | exhausted => exact hconcludes.elim
      | done =>
          obtain ⟨-, hfirst⟩ := hconcludes
          exact ⟨chains, hbreaks, (hfirst.mono (List.nil_subset _)).trans hleaves hmore,
            hmore.trans houtgrows⟩
      | failed fault =>
          obtain ⟨chain, hbreak, hfirst⟩ := hconcludes
          have hleft := (hfirst.mono (List.subset_append_left chain chains.flatten)).trans
            (hleaves.mono (List.subset_append_right chain chains.flatten)) hmore
          exact ⟨chain :: chains, .cons hbreak hbreaks, hleft, hmore.trans houtgrows⟩

/-- What is required of a target but not visited is behind a visited place on a chain. -/
theorem Leaves.behind {target path : String} (hleaves : Leaves base options chain {} walk)
    (htarget : walk.isVisited base target = true) (hpath : base.Requires options target path) :
    walk.isVisited base path = true ∨ ∃ middle place, base.Requires options target middle ∧
      base.locate middle = .ok place ∧ place.key ∈ chain ∧ base.Requires options middle path := by
  induction hpath with
  | target => exact Or.inl htarget
  | @step here fullName next place hhere hlocate hneeds hresolve ih =>
      rcases ih with hvisited | ⟨middle, found, hmiddle, hfound, hmem, hrest⟩
      · obtain ⟨place', hlocate', hcontains⟩ := isVisited_iff.mp hvisited
        rw [hlocate] at hlocate'
        cases hlocate'
        rcases hleaves place.key hcontains with hempty | ⟨-, hmem | hcovered⟩
        · cases hempty
        · exact Or.inr ⟨here, place, hhere, hlocate, hmem,
            .step .target hlocate hneeds hresolve⟩
        · exact Or.inl (hcovered fullName next hneeds hresolve)
      · exact Or.inr ⟨middle, found, hmiddle, hfound, hmem,
          .step hrest hlocate hneeds hresolve⟩

theorem Leaves.not_isVisited (hleaves : Leaves base options chain {} walk)
    (hunavailable : base.Unavailable options path) : walk.isVisited base path = false := by
  rw [← Bool.not_eq_true]
  intro hvisited
  obtain ⟨place, hlocate, hcontains⟩ := isVisited_iff.mp hvisited
  rcases hleaves place.key hcontains with hempty | ⟨hreadable, -⟩
  · cases hempty
  · exact hunavailable place hlocate hreadable

/-- **What a success has visited.**  Without a limit each of the earlier runs that failed has
broken at a chain of places.  When a run ends well after them, all paths that its target requires
are visited, but for those behind a place on such a chain; and behind each such place that the
target requires, some path is not visited. -/
theorem run_complete (base : Codebase) (options : WalkOptions)
    (hunlimited : options.maxDepth = none) (earlier : List String) (target : String) (after : Walk)
    (hrun : (runAll base options {} earlier).2.run base options target = (.done, after)) :
    ∃ chains,
      List.Forall₂ (base.Breaks options)
        (failures earlier (runAll base options {} earlier).1) chains ∧
      (∀ path, base.Requires options target path → after.isVisited base path = true ∨
        ∃ middle place, base.Requires options target middle ∧
          base.locate middle = .ok place ∧ place.key ∈ chains.flatten ∧
          base.Requires options middle path) ∧
      ∀ middle place, base.Requires options target middle → base.locate middle = .ok place →
        place.key ∈ chains.flatten →
          ∃ path, base.Requires options middle path ∧ after.isVisited base path = false := by
  obtain ⟨chains, hbreaks, hearlier, -⟩ := @runAll_leaves base options hunlimited earlier {}
  have hconcludes :=
    @run_concludes base options (runAll base options {} earlier).2 hunlimited target
  have houtgrows := @run_outgrows base options (runAll base options {} earlier).2 target
  rw [hrun] at hconcludes houtgrows
  obtain ⟨htarget, hlast⟩ := hconcludes
  have hleaves : Leaves base options chains.flatten {} after :=
    hearlier.trans (hlast.mono (List.nil_subset _)) houtgrows
  refine ⟨chains, hbreaks, fun path hpath => hleaves.behind htarget hpath, ?_⟩
  intro middle place _ hlocate hmem
  obtain ⟨chain, hchain, hkey⟩ := List.mem_flatten.mp hmem
  obtain ⟨failed, -, hbreak⟩ := Codebase.breaks_of_mem hbreaks hchain
  obtain ⟨path, hpath, hunavailable⟩ := hbreak.unavailable_of_mem hlocate hkey
  exact ⟨path, hpath, hleaves.not_isVisited hunavailable⟩

set_option maxRecDepth 4000 in
/-- The walk of a target that is not there breaks before any place, so a run after it is
complete. -/
theorem run_complete_stray :
    (runAll .shortcut { exclude := [] } {} ["x"]).1 = [.failed (.notFound "x")] ∧
      ∀ path, Codebase.shortcut.Requires { exclude := [] } "r" path →
        (runAll .shortcut { exclude := [] } {} ["x", "r"]).2.isVisited .shortcut path = true := by
  have hstray : (runAll .shortcut { exclude := [] } {} ["x"]).1 = [.failed (.notFound "x")] := by
    cbv
  have hdone : ((runAll .shortcut { exclude := [] } {} ["x"]).2.run .shortcut { exclude := [] }
      "r").1 = .done := by cbv
  obtain ⟨chains, hbreaks, hbehind, -⟩ := run_complete .shortcut { exclude := [] } rfl ["x"] "r" _
    (Prod.ext hdone rfl)
  refine ⟨hstray, fun path hpath => ?_⟩
  have hnone : chains.flatten = [] := by
    rw [hstray] at hbreaks
    obtain ⟨chain, rest, hbreak, hrest, rfl⟩ := List.forall₂_cons_left_iff.mp hbreaks
    rw [List.forall₂_nil_left_iff.mp hrest]
    cases hbreak with
    | here _ => rfl
    | behind hlocate hneeds _ _ =>
        cases hlocate
        have hnames : Codebase.shortcut.neededNames { exclude := [] } "x" = [] := by cbv
        rw [← Codebase.mem_neededNames, hnames] at hneeds
        cases hneeds
  rcases hbehind path hpath with hvisited | ⟨middle, place, -, -, hmem, -⟩
  · exact hvisited
  · rw [hnone] at hmem
    cases hmem

set_option maxRecDepth 4000 in
/-- The first walk of `r` fails since `a` is missing.  The second ends well, and `c` is still not
visited. -/
theorem run_incomplete_again :
    (runAll (.shortcutWithout "a") { exclude := [] } {} ["r", "r"]).1 =
        [.failed (.notFound "a"), .done] ∧
      (Codebase.shortcutWithout "a").Requires { exclude := [] } "r" "c" ∧
      (runAll (.shortcutWithout "a") { exclude := [] } {} ["r", "r"]).2.isVisited
        (.shortcutWithout "a") "c" = false := by
  have hnames : (Codebase.shortcutWithout "a").neededNames { exclude := [] } "r" = ["a", "c"] := by
    cbv
  have hneeds : (Codebase.shortcutWithout "a").Needs { exclude := [] } "r" "c" := by
    rw [← Codebase.mem_neededNames, hnames]
    simp
  have hrequires : (Codebase.shortcutWithout "a").Requires { exclude := [] } "r" "c" :=
    .step .target rfl hneeds rfl
  exact ⟨by cbv, hrequires, by cbv⟩

end Walk

end GoAtlas
