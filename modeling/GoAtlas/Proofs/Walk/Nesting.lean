import GoAtlas.Proofs.Walk.Requests

/-!
# A walk comes to an end

`Walk.visit` recurses on a bound for the nesting of visits, so by itself it does not say whether
the search would end without one.  `Walk.Course` describes the same search with no bound: each
of its constructors is a way for a visit, or for a part of one, to go on.  What has a course
ends, and the course lists all calls made on the way, each with the places whose imports are
being followed at the time.

Every visit has a course, whatever state the walk is in (`visit_course`), so nothing is assumed
here of how earlier runs have ended.  What keeps the nesting down depends on the limit:

* Without a limit a visit goes on only if it enters a new place.  The places around a call are
  therefore distinct, and each of them was entered after the search began.
* Under a limit a known place may be followed again, and the places around a call may repeat.
  But imports are followed below the limit only, and every call lies one deeper than the call
  around it.

`Course.entered` and `Course.allows` say so of any part of the search, and `run_terminates` puts
them together for a run.
-/

namespace GoAtlas

/-- The places that a walk has not visited. -/
def Codebase.unvisited (base : Codebase) (walk : Walk) : List String :=
  base.places.dedup.filter fun key => !walk.visited.contains key

namespace Walk

/-- Every place visited in `before` is visited in `after`. -/
def Outgrows (after before : Walk) : Prop :=
  ∀ key, before.visited.contains key = true → after.visited.contains key = true

namespace Outgrows

variable {before middle after : Walk} {place : Place} {visit : Visit}

theorem of_eq (hvisited : after.visited = before.visited) : after.Outgrows before :=
  fun key hkey => by rw [hvisited]; exact hkey

theorem of_insert (hvisited : after.visited = before.visited.insert place.key visit) :
    after.Outgrows before :=
  fun key hkey => by rw [hvisited, Table.contains_insert, hkey, Bool.or_true]

theorem trans (hlater : after.Outgrows middle) (hfirst : middle.Outgrows before) :
    after.Outgrows before :=
  fun key hkey => hlater key (hfirst key hkey)

end Outgrows

/-! ## The search without a bound -/

/-- A part of the search. -/
inductive Task where
  /-- To visit the place that a path denotes. -/
  | visit (depth : Nat) (path : String)
  /-- To follow some imports of a place visited at the given depth, one after another. -/
  | follow (place : Place) (depth : Nat) (report : Bool) (imports : List Import)

/-- The depth of the first call that a task makes. -/
def Task.depth : Task → Nat
  | visit depth _ => depth
  | follow _ depth _ _ => depth + 1

/-- A call to visit a path. -/
structure Call where
  /-- The places whose imports are being followed, the innermost first. -/
  around : List Place
  depth : Nat
  path : String
  /-- The walk at the time of the call. -/
  walk : Walk

/-- `Course base options around task walk calls result`: a task taken up with `walk`, while the
imports of the places `around` are being followed, makes the calls `calls` and ends with
`result`. -/
inductive Course (base : Codebase) (options : WalkOptions) :
    List Place → Task → Walk → List Call → Outcome × Walk → Prop where
  | ends {around : List Place} {depth : Nat} {path : String} {walk : Walk}
      {result : Outcome × Walk} (harrive : arrive base options depth path walk = .ends result) :
      Course base options around (.visit depth path) walk [⟨around, depth, path, walk⟩] result
  | stops {around : List Place} {depth : Nat} {path : String} {walk middle : Walk}
      {place : Place} {visit : Visit}
      (harrive : arrive base options depth path walk = .goesOn place visit middle)
      (hstops : options.stopsAt depth = true) :
      Course base options around (.visit depth path) walk [⟨around, depth, path, walk⟩]
        (.done, middle)
  | goesOn {around : List Place} {depth : Nat} {path : String} {walk middle : Walk}
      {place : Place} {visit : Visit} {calls : List Call} {result : Outcome × Walk}
      (harrive : arrive base options depth path walk = .goesOn place visit middle)
      (hgoes : options.stopsAt depth = false)
      (hfollow : Course base options (place :: around)
        (.follow place depth (!visit.followed) visit.imports.values)
        (middle.setVisit place { visit with followed := true }) calls result) :
      Course base options around (.visit depth path) walk
        (⟨around, depth, path, walk⟩ :: calls) result
  | served {around : List Place} {depth : Nat} {walk : Walk} {place : Place} {report : Bool} :
      Course base options around (.follow place depth report []) walk [] (.done, walk)
  | nowhere {around : List Place} {depth : Nat} {walk : Walk} {place : Place} {report : Bool}
      {entry : Import} {rest : List Import} {calls : List Call} {result : Outcome × Walk}
      (hresolve : base.resolve? entry.fullName = none)
      (hrest : Course base options around (.follow place depth report rest)
        (if report then walk.reportUnresolved place entry.fullName else walk) calls result) :
      Course base options around (.follow place depth report (entry :: rest)) walk calls result
  | next {around : List Place} {depth : Nat} {path : String} {walk middle : Walk}
      {place : Place} {report : Bool} {entry : Import} {rest : List Import}
      {calls more : List Call} {result : Outcome × Walk}
      (hresolve : base.resolve? entry.fullName = some path)
      (hvisit : Course base options around (.visit (depth + 1) path) walk calls (.done, middle))
      (hrest : Course base options around (.follow place depth report rest) middle more result) :
      Course base options around (.follow place depth report (entry :: rest)) walk
        (calls ++ more) result
  | interrupted {around : List Place} {depth : Nat} {path : String} {walk middle : Walk}
      {place : Place} {report : Bool} {entry : Import} {rest : List Import} {calls : List Call}
      {fault : Fault} (hresolve : base.resolve? entry.fullName = some path)
      (hvisit : Course base options around (.visit (depth + 1) path) walk calls
        (.failed fault, middle)) :
      Course base options around (.follow place depth report (entry :: rest)) walk calls
        (.failed fault, middle)

/-- Since a task that begins at `depth` with `walk`, the places `inner` have been gone into on
the way to a call. -/
structure Call.Inside (base : Codebase) (options : WalkOptions) (around : List Place)
    (depth : Nat) (walk : Walk) (inner : List Place) (call : Call) : Prop where
  around_eq : call.around = inner ++ around
  depth_eq : call.depth = depth + inner.length
  outgrows : call.walk.Outgrows walk
  /-- Without a limit, going into a place is entering it. -/
  new : options.maxDepth = none → (inner.map Place.key).Nodup ∧
    ∀ place ∈ inner, place.key ∈ base.places ∧ walk.visited.contains place.key = false ∧
      call.walk.visited.contains place.key = true

namespace Call.Inside

variable {base : Codebase} {options : WalkOptions} {around inner : List Place} {depth : Nat}
  {walk middle : Walk} {call : Call} {place : Place} {visit : Visit} {path : String}

/-- The first call of a task. -/
theorem first : Call.Inside base options around depth walk [] ⟨around, depth, path, walk⟩ :=
  ⟨rfl, rfl, fun _ hkey => hkey, fun _ => ⟨List.nodup_nil, by simp⟩⟩

theorem of_outgrows (hinside : call.Inside base options around depth middle inner)
    (houtgrows : middle.Outgrows walk) : call.Inside base options around depth walk inner := by
  refine ⟨hinside.around_eq, hinside.depth_eq, hinside.outgrows.trans houtgrows, fun hnone => ?_⟩
  obtain ⟨hnodup, hnew⟩ := hinside.new hnone
  refine ⟨hnodup, fun place hplace => ?_⟩
  obtain ⟨hmem, hbefore, hvisited⟩ := hnew place hplace
  refine ⟨hmem, ?_, hvisited⟩
  by_contra hcontains
  rw [houtgrows place.key (by simpa using hcontains)] at hbefore
  cases hbefore

/-- A call made while the imports of a place are followed is one deeper inside. -/
theorem of_arrive (harrive : arrive base options depth path walk = .goesOn place visit middle)
    (hinside : call.Inside base options (place :: around) (depth + 1)
      (middle.setVisit place { visit with followed := true }) inner) :
    call.Inside base options around depth walk (inner ++ [place]) := by
  obtain ⟨hvisited, hplace⟩ := arrive_goesOn harrive
  have hmiddle : (middle.setVisit place { visit with followed := true }).Outgrows walk :=
    Outgrows.trans (.of_insert rfl) (.of_insert hvisited)
  have hkey : (middle.setVisit place { visit with followed := true }).visited.contains place.key =
      true := by
    rw [setVisit_visited, Table.contains_insert]
    simp
  have hwalk := hinside.of_outgrows hmiddle
  refine ⟨?_, ?_, hwalk.outgrows, fun hnone => ?_⟩
  · rw [hinside.around_eq, List.append_assoc]
    rfl
  · rw [hinside.depth_eq, List.length_append, List.length_singleton]
    omega
  · obtain ⟨hnodup, hnew⟩ := hinside.new hnone
    obtain ⟨hmem, hbefore⟩ := hplace hnone
    constructor
    · -- The places further inside were not visited when `place` already was.
      rw [List.map_append, List.nodup_append]
      refine ⟨hnodup, by simp, ?_⟩
      intro key hinner other hother
      obtain ⟨deeper, hdeeper, rfl⟩ := List.mem_map.mp hinner
      rw [List.map_singleton, List.mem_singleton] at hother
      rintro hsame
      have hfresh := (hnew deeper hdeeper).2.1
      rw [hsame, hother, hkey] at hfresh
      cases hfresh
    · intro other hother
      rcases List.mem_append.mp hother with hother | hother
      · exact (hwalk.new hnone).2 other hother
      · rw [List.mem_singleton.mp hother]
        exact ⟨hmem, hbefore, hinside.outgrows place.key hkey⟩

end Call.Inside

namespace Course

variable {base : Codebase} {options : WalkOptions} {around : List Place} {task : Task}
  {walk : Walk} {calls : List Call} {result : Outcome × Walk}

/-- A task has one course at most. -/
theorem unique (hcourse : Course base options around task walk calls result)
    {calls' : List Call} {result' : Outcome × Walk}
    (hother : Course base options around task walk calls' result') :
    calls' = calls ∧ result' = result := by
  induction hcourse generalizing calls' result' with
  | ends harrive =>
      cases hother <;> simp_all
  | stops harrive hstops =>
      cases hother <;> simp_all
  | goesOn harrive hgoes _ ih =>
      cases hother with
      | ends harrive' => simp_all
      | stops harrive' hstops => simp_all
      | goesOn harrive' _ hfollow =>
          rw [harrive] at harrive'
          cases harrive'
          obtain ⟨rfl, rfl⟩ := ih hfollow
          exact ⟨rfl, rfl⟩
  | served =>
      cases hother
      exact ⟨rfl, rfl⟩
  | nowhere hresolve _ ih =>
      cases hother with
      | nowhere _ hrest => exact ih hrest
      | next hresolve' _ _ => simp_all
      | interrupted hresolve' _ => simp_all
  | next hresolve _ _ ihVisit ihRest =>
      cases hother with
      | nowhere hresolve' _ => simp_all
      | next hresolve' hvisit hrest =>
          rw [hresolve] at hresolve'
          cases hresolve'
          obtain ⟨rfl, hmiddle⟩ := ihVisit hvisit
          cases hmiddle
          obtain ⟨rfl, rfl⟩ := ihRest hrest
          exact ⟨rfl, rfl⟩
      | interrupted hresolve' hvisit =>
          rw [hresolve] at hresolve'
          cases hresolve'
          cases (ihVisit hvisit).2
  | interrupted hresolve _ ih =>
      cases hother with
      | nowhere hresolve' _ => simp_all
      | next hresolve' hvisit _ =>
          rw [hresolve] at hresolve'
          cases hresolve'
          cases (ih hvisit).2
      | interrupted hresolve' hvisit =>
          rw [hresolve] at hresolve'
          cases hresolve'
          exact ih hvisit

/-- What has a course does not run out of a bound. -/
theorem ne_exhausted (hcourse : Course base options around task walk calls result) :
    result.1 ≠ .exhausted := by
  induction hcourse with
  | ends harrive => exact (arrive_ends harrive).1
  | stops _ _ => simp
  | goesOn _ _ _ ih => exact ih
  | served => simp
  | nowhere _ _ ih => exact ih
  | next _ _ _ _ ih => exact ih
  | interrupted _ _ _ => simp

/-- Visited places stay visited. -/
theorem outgrows (hcourse : Course base options around task walk calls result) :
    result.2.Outgrows walk := by
  induction hcourse with
  | ends harrive => exact .of_eq (arrive_ends harrive).2
  | stops harrive _ => exact .of_insert (arrive_goesOn harrive).1
  | goesOn harrive _ _ ih =>
      exact (ih.trans (.of_insert rfl)).trans (.of_insert (arrive_goesOn harrive).1)
  | served => exact .of_eq rfl
  | nowhere _ _ ih => exact ih.trans (.of_eq (by split <;> rfl))
  | next _ _ _ ihVisit ihRest => exact ihRest.trans ihVisit
  | interrupted _ _ ih => exact ih

/-- Below a limit all calls are within it, if the first one is. -/
theorem allows (hcourse : Course base options around task walk calls result)
    (hallows : options.Allows task.depth) : ∀ call ∈ calls, options.Allows call.depth := by
  induction hcourse with
  | ends _ =>
      intro call hcall
      rw [List.mem_singleton.mp hcall]
      exact hallows
  | stops _ _ =>
      intro call hcall
      rw [List.mem_singleton.mp hcall]
      exact hallows
  | goesOn _ hgoes _ ih =>
      rintro call (_ | ⟨_, hcall⟩)
      · exact hallows
      · exact ih (WalkOptions.stopsAt_eq_false_iff.mp hgoes) call hcall
  | served => simp
  | nowhere _ _ ih => exact ih hallows
  | next _ _ _ ihVisit ihRest =>
      intro call hcall
      rcases List.mem_append.mp hcall with hcall | hcall
      · exact ihVisit hallows call hcall
      · exact ihRest hallows call hcall
  | interrupted _ _ ih => exact ih hallows

/-- The places entered on the way to a call are the innermost around it.  Without a limit they
are new ones. -/
theorem entered (hcourse : Course base options around task walk calls result) :
    ∀ call ∈ calls, ∃ inner, call.Inside base options around task.depth walk inner := by
  induction hcourse with
  | ends _ =>
      intro call hcall
      rw [List.mem_singleton.mp hcall]
      exact ⟨[], .first⟩
  | stops _ _ =>
      intro call hcall
      rw [List.mem_singleton.mp hcall]
      exact ⟨[], .first⟩
  | goesOn harrive _ _ ih =>
      intro call hcall
      rcases List.mem_cons.mp hcall with rfl | hcall
      · exact ⟨[], .first⟩
      · obtain ⟨inner, hinside⟩ := ih call hcall
        exact ⟨_, hinside.of_arrive harrive⟩
  | served => simp
  | nowhere _ _ ih =>
      intro call hcall
      obtain ⟨inner, hinside⟩ := ih call hcall
      exact ⟨inner, hinside.of_outgrows (.of_eq (by split <;> rfl))⟩
  | next _ hvisit _ ihVisit ihRest =>
      intro call hcall
      rcases List.mem_append.mp hcall with hcall | hcall
      · exact ihVisit call hcall
      · obtain ⟨inner, hinside⟩ := ihRest call hcall
        exact ⟨inner, hinside.of_outgrows hvisit.outgrows⟩
  | interrupted _ _ ih => exact ih

end Course

/-! ## Every visit has a course -/

section Existence

variable {base : Codebase} {options : WalkOptions} {walk middle : Walk} {place : Place}
  {visit : Visit} {depth nesting : Nat} {path : String}

/-- The loop over imports has a course if each visit in it does. -/
theorem followEach_course {around : List Place} {next : String → Walk → Outcome × Walk}
    (report : Bool)
    (hnext : ∀ path later, later.Outgrows walk →
      ∃ calls, Course base options around (.visit (depth + 1) path) later calls (next path later))
    (imports : List Import) : ∀ later : Walk, later.Outgrows walk →
      ∃ calls, Course base options around (.follow place depth report imports) later calls
        (followEach base next place report imports later) := by
  induction imports with
  | nil =>
      intro later _
      exact ⟨[], .served⟩
  | cons entry rest ih =>
      intro later hlater
      simp only [followEach]
      cases hresolve : base.resolve? entry.fullName with
      | none =>
          obtain ⟨calls, hrest⟩ := ih
            (if report then later.reportUnresolved place entry.fullName else later)
            (Outgrows.trans (.of_eq (by split <;> rfl)) hlater)
          exact ⟨calls, .nowhere hresolve hrest⟩
      | some path =>
          obtain ⟨calls, hvisit⟩ := hnext path later hlater
          simp only
          generalize next path later = ended at hvisit
          obtain ⟨outcome, middle⟩ := ended
          cases outcome with
          | done =>
              obtain ⟨more, hrest⟩ := ih middle (hvisit.outgrows.trans hlater)
              exact ⟨calls ++ more, .next hresolve hvisit hrest⟩
          | failed fault => exact ⟨calls, .interrupted hresolve hvisit⟩
          | exhausted => exact absurd rfl hvisit.ne_exhausted

/-- With enough nesting left, a visit takes the course of the search without a bound. -/
theorem visit_course (nesting : Nat) : ∀ around depth path walk,
    Enough base options nesting depth walk → options.Allows depth →
      ∃ calls, Course base options around (.visit depth path) walk calls
        (Walk.visit base options nesting depth path walk) := by
  induction nesting with
  | zero =>
      intro around depth path walk henough hallows
      unfold Enough at henough
      cases hlimit : options.maxDepth with
      | none => simp [hlimit] at henough
      | some limit =>
          have hle := hallows limit hlimit
          simp only [hlimit] at henough
          omega
  | succ nesting ih =>
      intro around depth path walk henough hallows
      rw [visit_succ]
      cases harrive : arrive base options depth path walk with
      | ends result => exact ⟨_, .ends harrive⟩
      | goesOn place visit middle =>
          obtain ⟨hvisited, hplace⟩ := arrive_goesOn harrive
          simp only [follow]
          by_cases hstops : options.stopsAt depth = true
          · rw [if_pos hstops]
            exact ⟨_, .stops harrive hstops⟩
          · rw [if_neg hstops]
            have hgoes : options.stopsAt depth = false := Bool.eq_false_iff.mpr hstops
            have hnext := henough.next hplace hvisited
            obtain ⟨calls, hfollow⟩ := @followEach_course base options
              (middle.setVisit place { visit with followed := true }) place depth
              (place :: around) (Walk.visit base options nesting (depth + 1)) (!visit.followed)
              (fun path later hlater => ih (place :: around) (depth + 1) path later
                (hnext.mono (Outgrows.trans hlater (.of_insert rfl)))
                (WalkOptions.stopsAt_eq_false_iff.mp hgoes))
              visit.imports.values _ (.of_eq rfl)
            exact ⟨_, .goesOn harrive hgoes hfollow⟩

end Existence

/-! ## Runs -/

section Runs

variable {base : Codebase} {options : WalkOptions} {walk : Walk} {key target : String}

/-- A run takes the course of the search from its target. -/
theorem run_course : ∃ calls, Course base options [] (.visit 0 target) walk calls
    (walk.run base options target) :=
  visit_course (base.nesting options) [] 0 target walk (enough_nesting walk)
    fun limit _ => Nat.zero_le limit

theorem run_outgrows : (walk.run base options target).2.Outgrows walk := by
  obtain ⟨calls, hcourse⟩ := @run_course base options walk target
  exact hcourse.outgrows

theorem mem_unvisited : key ∈ base.unvisited walk ↔
    key ∈ base.places ∧ walk.visited.contains key = false := by
  simp [Codebase.unvisited]

theorem length_unvisited_le : (base.unvisited walk).length ≤ base.places.length :=
  (List.length_filter_le _ _).trans (List.dedup_sublist _).length_le

end Runs

/-- **A walk comes to an end.**  Whatever state a walk is in, the search from a target has a
course, and the run takes it.  The calls on the way are nested as deeply as their depths tell.
Without a limit the places around a call are distinct places that were not visited before, and
each had been entered when the call was made; so there is at most one call more around each other
than there are such places.  Under a limit there is at most one more than the limit.  A depth
fits in a word if the limit and the number of places do. -/
theorem run_terminates (base : Codebase) (options : WalkOptions) (walk : Walk)
    (target : String) :
    (∃ calls, Course base options [] (.visit 0 target) walk calls
      (walk.run base options target)) ∧
    ∀ calls result, Course base options [] (.visit 0 target) walk calls result →
      result = walk.run base options target ∧ result.1 ≠ .exhausted ∧
      ∀ call ∈ calls, call.depth = call.around.length ∧
        (options.maxDepth = none →
          (call.around.map Place.key).Nodup ∧
          (∀ place ∈ call.around, place.key ∈ base.unvisited walk ∧
            call.walk.visited.contains place.key = true) ∧
          call.around.length + 1 ≤ (base.unvisited walk).length + 1) ∧
        (∀ limit, options.maxDepth = some limit → call.around.length + 1 ≤ limit + 1) ∧
        (∀ size, base.places.length < size →
          (∀ limit, options.maxDepth = some limit → limit < size) → call.depth < size) := by
  have hallows : options.Allows 0 := fun limit _ => Nat.zero_le limit
  obtain ⟨calls, hrun⟩ := @run_course base options walk target
  refine ⟨⟨calls, hrun⟩, ?_⟩
  intro calls result hcourse
  refine ⟨(hrun.unique hcourse).2, hcourse.ne_exhausted, ?_⟩
  intro call hcall
  obtain ⟨inner, hinside⟩ := hcourse.entered call hcall
  have haround : call.around = inner := by
    rw [hinside.around_eq, List.append_nil]
  have hdepth : call.depth = call.around.length := by
    rw [hinside.depth_eq, haround]
    exact Nat.zero_add _
  have hlimit : options.Allows call.depth := hcourse.allows hallows call hcall
  have hunlimited : options.maxDepth = none → (call.around.map Place.key).Nodup ∧
      (∀ place ∈ call.around, place.key ∈ base.unvisited walk ∧
        call.walk.visited.contains place.key = true) ∧
      call.around.length ≤ (base.unvisited walk).length := by
    intro hnone
    obtain ⟨hnodup, hnew⟩ := hinside.new hnone
    rw [← haround] at hnodup hnew
    have hmem : ∀ place ∈ call.around, place.key ∈ base.unvisited walk :=
      fun place hplace => mem_unvisited.mpr ⟨(hnew place hplace).1, (hnew place hplace).2.1⟩
    refine ⟨hnodup, fun place hplace => ⟨hmem place hplace, (hnew place hplace).2.2⟩, ?_⟩
    have hsubset : call.around.map Place.key ⊆ base.unvisited walk := by
      intro key hkey
      obtain ⟨place, hplace, rfl⟩ := List.mem_map.mp hkey
      exact hmem place hplace
    calc call.around.length = (call.around.map Place.key).length := (List.length_map _).symm
      _ ≤ (base.unvisited walk).length := (hnodup.subperm hsubset).length_le
  refine ⟨hdepth, fun hnone => ?_, fun limit hsome => ?_, fun size hplaces hfits => ?_⟩
  · obtain ⟨hnodup, hnew, hle⟩ := hunlimited hnone
    exact ⟨hnodup, hnew, Nat.succ_le_succ hle⟩
  · rw [← hdepth]
    exact Nat.succ_le_succ (hlimit limit hsome)
  · cases hmax : options.maxDepth with
    | none =>
        have hle := (hunlimited hmax).2.2
        have hplacesLe := @length_unvisited_le base walk
        omega
    | some limit => exact (hlimit limit hmax).trans_lt (hfits limit hmax)

set_option maxRecDepth 4000 in
/-- A run has failed on the missing place `c` after it had entered `a`.  Three places are left, so
in the run after it no more than four calls are around each other. -/
theorem run_terminates_interrupted :
    (Walk.run (.shortcutWithout "c") { exclude := [] } {} "a").1 = .failed (.notFound "c") ∧
      ∃ calls, Course (.shortcutWithout "c") { exclude := [] } [] (.visit 0 "r")
        (Walk.run (.shortcutWithout "c") { exclude := [] } {} "a").2 calls
        (Walk.run (.shortcutWithout "c") { exclude := [] }
          (Walk.run (.shortcutWithout "c") { exclude := [] } {} "a").2 "r") ∧
        ∀ call ∈ calls, call.around.length + 1 ≤ 4 := by
  obtain ⟨walk, hwalk⟩ : ∃ walk,
      walk = (Walk.run (.shortcutWithout "c") { exclude := [] } {} "a").2 := ⟨_, rfl⟩
  rw [← hwalk]
  have hfailed : (Walk.run (.shortcutWithout "c") { exclude := [] } {} "a").1 =
      .failed (.notFound "c") := by cbv
  have hleft : (Codebase.unvisited (.shortcutWithout "c")
      (Walk.run (.shortcutWithout "c") { exclude := [] } {} "a").2).length = 3 := by cbv
  obtain ⟨⟨calls, hcourse⟩, hall⟩ :=
    run_terminates (.shortcutWithout "c") { exclude := [] } walk "r"
  refine ⟨hfailed, calls, hcourse, fun call hcall => ?_⟩
  obtain ⟨-, -, hcalls⟩ := hall calls _ hcourse
  have hnested := ((hcalls call hcall).2.1 rfl).2.2
  rwa [hwalk, hleft] at hnested

end Walk

end GoAtlas
