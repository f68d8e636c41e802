import GoAtlas.Proofs.Walk.Requests

/-!
# Every diagnostic is accounted for

The diagnostics of a walk come from two sources: the files that are collected, and the
imports that lead nowhere.  `runAll_diagnostics` says that after runs that end well they are, up
to their order, what collecting the files of the visited places gives, once for each place,
and one report for each place within the limit and each import path that it needs and
that leads nowhere.

That files report once is a matter of requests.  For imports the difficulty is the limit: a
place can be reached too deep for its imports to be looked at, and again closer to a target any
number of times.  The reports become due when its imports are taken up for the first time.
Which places these are can be read off the flags in the table of visits (`Noted`), and that all
reports which are due have been made is what the recursion guarantees (`Recounts.settled`).
-/

namespace GoAtlas

/-! ## What a place has to report -/

/-- What collecting a file reports. -/
def Walk.findingsIn (source : String × String × GoFile) : List Diagnostic :=
  match source.2.2.collect source.2.1 with
  | .ok collected => collected.diagnostics
  | .error _ => []

namespace Codebase

variable (base : Codebase) (options : WalkOptions) (key : String)

/-- What collecting the files of a place reports. -/
def findings : List Diagnostic :=
  match base.packages? key with
  | none => []
  | some packages => (options.files packages).flatMap Walk.findingsIn

/-- The import paths that the files of a place need, as often as they need them. -/
def neededNames : List String :=
  match base.packages? key with
  | none => []
  | some packages => ((options.files packages).flatMap Walk.neededBy).map Import.fullName

/-- The import paths that a place needs and that lead nowhere. -/
def danglingNames : List String :=
  (base.neededNames options key).dedup.filter fun fullName => (base.resolve? fullName).isNone

variable {base options key}

theorem mem_neededNames {fullName : String} :
    fullName ∈ base.neededNames options key ↔ base.Needs options key fullName := by
  unfold neededNames
  cases hpackages : base.packages? key with
  | none => simp [Needs, Contributes, hpackages]
  | some packages => rw [Walk.needs_iff hpackages, List.mem_map]

theorem mem_danglingNames {fullName : String} : fullName ∈ base.danglingNames options key ↔
    base.Needs options key fullName ∧ base.resolve? fullName = none := by
  rw [danglingNames, List.mem_filter, List.mem_dedup, mem_neededNames, Option.isNone_iff_eq_none]

theorem nodup_danglingNames : (base.danglingNames options key).Nodup :=
  (List.nodup_dedup _).filter _

end Codebase

namespace Walk

variable {base : Codebase} {options : WalkOptions} {targets : List String}
  {walk before after : Walk} {place : Place} {moments : List Moment} {moment : Moment}
  {key : String} {visit : Visit}

/-! ## Reports on files -/

theorem collectFiles_findings {needed imports : Table Import} {middle : Walk}
    {files : List (String × String × GoFile)}
    (hcollect : collectFiles base options walk needed files = (.ok imports, middle)) :
    middle.diagnostics = walk.diagnostics ++ files.flatMap findingsIn := by
  induction files generalizing walk needed with
  | nil =>
      cases hcollect
      rw [List.flatMap_nil, List.append_nil]
  | cons source rest ih =>
      obtain ⟨package, fileName, file⟩ := source
      obtain ⟨collected, hfile, hrest⟩ := collectFiles_cons_of_ok (congrArg Prod.fst hcollect)
      rw [hrest] at hcollect
      rw [ih hcollect, keep_diagnostics, List.flatMap_cons, List.append_assoc]
      simp [findingsIn, hfile]

theorem enter_diagnostics (walk : Walk) (depth : Nat)
    (hreadable : base.Readable options place.key) :
    (walk.enter base options place depth).diagnostics =
      walk.diagnostics ++ base.findings options place.key := by
  obtain ⟨packages, imports, middle, hpackages, hcollect, henter⟩ :=
    enter_of_readable walk depth hreadable
  have hfindings : base.findings options place.key =
      (options.files packages).flatMap findingsIn := by
    simp [Codebase.findings, hpackages]
  have hdiagnostics := collectFiles_findings hcollect
  rw [henter, hfindings]
  exact hdiagnostics

/-- Where no request is refused, the diagnostics are those of the places asked for and those
that are reported on the way. -/
theorem History.diagnostics_perm (hhistory : History options before moments after)
    (hwithin : ∀ moment ∈ moments, moment.Within base)
    (hunrefused : ∀ moment ∈ moments, ¬ moment.Refused options) :
    after.diagnostics.Perm (before.diagnostics ++
      ((requests moments).flatMap (fun request => base.findings options request.place.key) ++
        moments.flatMap fun moment => moment.event.reports)) := by
  induction hhistory with
  | start => simp
  | @step moments moment _ hfits ih =>
      rw [List.forall_mem_append, List.forall_mem_singleton] at hwithin hunrefused
      have hearlier := ih hwithin.1 hunrefused.1
      have hgoes := hunrefused.2
      have hsame := hwithin.2.base_eq
      rw [List.flatMap_append, List.flatMap_singleton]
      obtain ⟨base', walk, event⟩ := moment
      obtain rfl : base' = base := hsame
      cases event with
      | parse place depth =>
          have hdiagnostics : (Moment.after options ⟨base', walk, .parse place depth⟩).diagnostics =
              walk.diagnostics ++ base'.findings options place.key :=
            enter_diagnostics walk depth (not_not.mp hgoes)
          rw [hdiagnostics, requests_concat_parse, List.flatMap_append, List.flatMap_singleton]
          refine (hearlier.append_right _).trans ?_
          simp only [Event.reports, List.append_nil, List.append_assoc]
          exact (List.perm_append_comm.append_left _).append_left _
      | approach place depth known =>
          have hnone : Event.reports (.approach place depth known) = [] := rfl
          rw [requests_concat_other rfl, hnone, List.append_nil]
          exact hearlier
      | follow place visit =>
          have hnone : Event.reports (.follow place visit) = [] := rfl
          rw [requests_concat_other rfl, hnone, List.append_nil]
          exact hearlier
      | report place fullName =>
          rw [requests_concat_other rfl, ← List.append_assoc, ← List.append_assoc]
          refine List.Perm.append_right _ ?_
          rw [List.append_assoc]
          exact hearlier

/-! ## The imports of a visit -/

/-- The imports recorded for a place are those that it needs, under their import paths. -/
structure Lists (base : Codebase) (options : WalkOptions) (key : String) (visit : Visit) :
    Prop where
  keyed : ∀ fullName entry, visit.imports.get? fullName = some entry → entry.fullName = fullName
  needs : ∀ fullName, (∃ entry ∈ visit.imports.values, entry.fullName = fullName) ↔
    base.Needs options key fullName

theorem lists_enter (walk : Walk) (depth : Nat) (hreadable : base.Readable options place.key) :
    ∃ imports, (walk.enter base options place depth).visited =
        walk.visited.insert place.key ⟨depth, imports, false⟩ ∧
      Lists base options place.key ⟨depth, imports, false⟩ := by
  obtain ⟨packages, imports, middle, hpackages, hcollect, henter⟩ :=
    enter_of_readable walk depth hreadable
  have hvisited := @collectFiles_visited base options
    { walk with order := walk.order ++ [place.path] } Table.empty (options.files packages)
  rw [hcollect] at hvisited
  have hok := congrArg Prod.fst hcollect
  refine ⟨imports, ?_, ?_, collectFiles_needs hpackages hok⟩
  · rw [henter, setVisit_visited, hvisited]
  · intro fullName entry hentry
    rw [get?_collectFiles hok, Table.get?_empty, Option.none_or] at hentry
    simpa using List.find?_some hentry

/-- How a visit that is recorded after an event has come about. -/
inductive Revision (options : WalkOptions) (moment : Moment) (key : String) (visit : Visit) :
    Prop where
  | kept (hvisit : moment.walk.visited.get? key = some visit)
  | entered {place : Place} {depth : Nat} (hevent : moment.event = .parse place depth)
      (hunfollowed : visit.followed = false) (hlists : Lists moment.base options key visit)
  | approached {place : Place} {depth : Nat} {known : Visit}
      (hevent : moment.event = .approach place depth known)
      (hknown : moment.walk.visited.get? key = some known) (hcloser : depth < known.depth)
      (hvisit : visit = { known with depth })
  | followed {place : Place} {known : Visit} (hevent : moment.event = .follow place known)
      (hkey : place.key = key) (hknown : moment.walk.visited.get? key = some known)
      (hgoes : options.stopsAt known.depth = false)
      (hvisit : visit = { known with followed := true })

theorem Moment.revision (hfits : moment.Fits options)
    (hvisit : (moment.after options).visited.get? key = some visit) :
    Revision options moment key visit := by
  obtain ⟨base, walk, event⟩ := moment
  cases event with
  | report place fullName => exact .kept hvisit
  | parse place depth =>
      rw [Moment.after] at hvisit
      by_cases hreadable : base.Readable options place.key
      · obtain ⟨imports, hvisited, hlists⟩ := lists_enter walk depth hreadable
        rw [hvisited, Table.get?_insert] at hvisit
        split at hvisit
        · rename_i hkey
          cases hvisit
          exact .entered rfl rfl (hkey ▸ hlists)
        · exact .kept hvisit
      · rw [enter_of_not_readable hreadable] at hvisit
        exact .kept hvisit
  | approach place depth known =>
      obtain ⟨hknown, hcloser⟩ := hfits
      rw [Moment.after, setVisit_visited, Table.get?_insert] at hvisit
      split at hvisit
      · rename_i hkey
        exact .approached rfl (hkey ▸ hknown) hcloser (Option.some.inj hvisit).symm
      · exact .kept hvisit
  | follow place known =>
      obtain ⟨hknown, hgoes⟩ := hfits
      rw [Moment.after, setVisit_visited, Table.get?_insert] at hvisit
      split at hvisit
      · rename_i hkey
        exact .followed rfl hkey.symm (hkey ▸ hknown) hgoes (Option.some.inj hvisit).symm
      · exact .kept hvisit

/-- Only imports that are needed are recorded. -/
theorem History.lists (hhistory : History options before moments after) (hbefore : before = {})
    (hwithin : ∀ moment ∈ moments, moment.Within base) :
    ∀ key visit, after.visited.get? key = some visit → Lists base options key visit := by
  induction hhistory with
  | start =>
      intro key visit hvisit
      rw [hbefore] at hvisit
      cases hvisit
  | @step moments moment _ hfits ih =>
      rw [List.forall_mem_append, List.forall_mem_singleton] at hwithin
      have hearlier := ih hwithin.1
      have hsame := hwithin.2.base_eq
      intro key visit hvisit
      cases moment.revision hfits hvisit with
      | kept hknown => exact hearlier key visit hknown
      | entered _ _ hlists => exact hsame ▸ hlists
      | approached _ hknown _ hvisit =>
          obtain ⟨hkeyed, hneeds⟩ := hearlier key _ hknown
          rw [hvisit]
          exact ⟨hkeyed, hneeds⟩
      | followed _ _ hknown _ hvisit =>
          obtain ⟨hkeyed, hneeds⟩ := hearlier key _ hknown
          rw [hvisit]
          exact ⟨hkeyed, hneeds⟩

/-- What becomes due for a place are the reports on its dangling imports. -/
theorem Lists.dangling_perm (hlists : Lists base options place.key visit) :
    (Event.dangling base place visit.imports.values).Perm
      ((base.danglingNames options place.key).map (notFound place)) := by
  have hnames : visit.imports.values.map Import.fullName = visit.imports.keys := by
    rw [Table.values, Table.keys, List.map_map]
    refine List.map_congr_left ?_
    rintro ⟨fullName, entry⟩ hentry
    exact hlists.keyed fullName entry (Table.mem_entries.mp hentry)
  have hdangling : Event.dangling base place visit.imports.values =
      (visit.imports.keys.filter fun name => (base.resolve? name).isNone).map
        (notFound place) := by
    rw [← hnames, List.filter_map, List.map_map]
    rfl
  rw [hdangling]
  refine List.Perm.map _ ?_
  rw [List.perm_ext_iff_of_nodup (visit.imports.keys_nodup.filter _)
    Codebase.nodup_danglingNames]
  intro name
  rw [Codebase.mem_danglingNames, List.mem_filter, Option.isNone_iff_eq_none, ← hnames,
    List.mem_map, hlists.needs name]

/-! ## Places whose imports have been taken up -/

/-- The place whose imports are taken up for the first time, if the event is that. -/
def Event.started? : Event → Option Place
  | .follow place visit => if visit.followed then none else some place
  | _ => none

/-- The places whose imports have been taken up, in order. -/
def started (moments : List Moment) : List Place :=
  moments.filterMap fun moment => moment.event.started?

theorem started_concat (moments : List Moment) (moment : Moment) :
    started (moments ++ [moment]) = started moments ++ moment.event.started?.toList := by
  unfold started
  rw [List.filterMap_append]
  cases hevent : moment.event.started? <;> simp [hevent]

theorem Event.started?_eq_some {event : Event} : event.started? = some place ↔
    ∃ visit, event = .follow place visit ∧ visit.followed = false := by
  cases event with
  | parse place' depth => simp [started?]
  | approach place' depth known => simp [started?]
  | report place' fullName => simp [started?]
  | follow place' visit =>
      cases hflag : visit.followed with
      | true =>
          simp only [started?, hflag, if_true, reduceCtorEq, false_iff]
          rintro ⟨_, heq, hunset⟩
          cases heq
          rw [hflag] at hunset
          cases hunset
      | false =>
          simp only [started?, hflag, Bool.false_eq_true, if_false, Option.some.injEq]
          constructor
          · rintro rfl
            exact ⟨visit, rfl, hflag⟩
          · rintro ⟨_, heq, -⟩
            cases heq
            rfl

/-- Imports are taken up for the first time where the flag is not set, and the flag is set
then. -/
theorem Moment.flag_of_started (hfits : moment.Fits options)
    (hstarted : moment.event.started? = some place) :
    (∃ visit, moment.walk.visited.get? place.key = some visit ∧ visit.followed = false) ∧
      ∃ later, (moment.after options).visited.get? place.key = some later ∧
        later.followed = true := by
  obtain ⟨base, walk, event⟩ := moment
  obtain ⟨visit, heq, hflag⟩ := Event.started?_eq_some.mp hstarted
  obtain rfl : event = .follow place visit := heq
  refine ⟨⟨visit, hfits.1, hflag⟩, { visit with followed := true }, ?_, rfl⟩
  rw [Moment.after, setVisit_visited, Table.get?_insert, if_pos rfl]

/-- The flags in the table of visits tell whose imports have been taken up.  They stay below
the limit. -/
structure Noted (options : WalkOptions) (moments : List Moment) (walk : Walk) : Prop where
  flagged : ∀ key, (∃ visit, walk.visited.get? key = some visit ∧ visit.followed = true) ↔
    key ∈ (started moments).map Place.key
  once : ((started moments).map Place.key).Nodup
  below : ∀ key visit, walk.visited.get? key = some visit → visit.followed = true →
    options.stopsAt visit.depth = false

theorem noted_empty : Noted options [] {} where
  flagged := by simp [started]
  once := List.nodup_nil
  below := by
    intro key visit hvisit
    cases hvisit

/-- A flag that is set stays set. -/
theorem Moment.followed_after (hfits : moment.Fits options)
    (hvisit : moment.walk.visited.get? key = some visit) (hfollowed : visit.followed = true) :
    ∃ later, (moment.after options).visited.get? key = some later ∧ later.followed = true := by
  obtain ⟨base, walk, event⟩ := moment
  cases event with
  | report place fullName => exact ⟨visit, hvisit, hfollowed⟩
  | parse place depth =>
      have hother : key ≠ place.key := by
        rintro rfl
        rw [hfits] at hvisit
        cases hvisit
      rw [Moment.after]
      by_cases hreadable : base.Readable options place.key
      · obtain ⟨imports, hvisited⟩ := enter_visited walk depth hreadable
        rw [hvisited, Table.get?_insert, if_neg hother]
        exact ⟨visit, hvisit, hfollowed⟩
      · rw [enter_of_not_readable hreadable]
        exact ⟨visit, hvisit, hfollowed⟩
  | approach place depth known =>
      rw [Moment.after, setVisit_visited, Table.get?_insert]
      split
      · rename_i hkey
        rw [hkey, hfits.1] at hvisit
        cases hvisit
        exact ⟨_, rfl, hfollowed⟩
      · exact ⟨visit, hvisit, hfollowed⟩
  | follow place known =>
      rw [Moment.after, setVisit_visited, Table.get?_insert]
      split
      · exact ⟨_, rfl, rfl⟩
      · exact ⟨visit, hvisit, hfollowed⟩

theorem stopsAt_of_lt {depth deeper : Nat} (hgoes : options.stopsAt deeper = false)
    (hlt : depth < deeper) : options.stopsAt depth = false := by
  rw [WalkOptions.stopsAt_eq_false_iff] at hgoes ⊢
  exact hgoes.mono (by omega)

theorem Noted.step (hnoted : Noted options moments moment.walk) (hfits : moment.Fits options) :
    Noted options (moments ++ [moment]) (moment.after options) := by
  refine ⟨?_, ?_, ?_⟩
  · intro key
    rw [started_concat, List.map_append, List.mem_append, ← hnoted.flagged]
    constructor
    · rintro ⟨visit, hvisit, hfollowed⟩
      cases moment.revision hfits hvisit with
      | kept hknown => exact Or.inl ⟨visit, hknown, hfollowed⟩
      | entered _ hunfollowed _ =>
          rw [hunfollowed] at hfollowed
          cases hfollowed
      | approached _ hknown _ hvisit =>
          subst hvisit
          exact Or.inl ⟨_, hknown, hfollowed⟩
      | @followed place known hevent hkey hknown _ _ =>
          cases hflag : known.followed with
          | true => exact Or.inl ⟨known, hknown, hflag⟩
          | false => exact Or.inr (by simp [hevent, Event.started?, hflag, hkey])
    · rintro (⟨visit, hvisit, hfollowed⟩ | hstarted)
      · exact moment.followed_after hfits hvisit hfollowed
      · obtain ⟨place, hplace, rfl⟩ := List.mem_map.mp hstarted
        exact (moment.flag_of_started hfits (Option.mem_toList.mp hplace)).2
  · rw [started_concat, List.map_append, List.nodup_append]
    refine ⟨hnoted.once, by cases moment.event.started? <;> simp, ?_⟩
    -- The flag of a place listed before is set, so its imports are not taken up again.
    rintro key hkey other hother rfl
    obtain ⟨place, hplace, rfl⟩ := List.mem_map.mp hother
    obtain ⟨⟨visit, hvisit, hflag⟩, -⟩ :=
      moment.flag_of_started hfits (Option.mem_toList.mp hplace)
    obtain ⟨known, hknown, hset⟩ := (hnoted.flagged place.key).mpr hkey
    rw [hvisit] at hknown
    cases hknown
    rw [hflag] at hset
    cases hset
  · intro key visit hvisit hfollowed
    cases moment.revision hfits hvisit with
    | kept hknown => exact hnoted.below key visit hknown hfollowed
    | entered _ hunfollowed _ =>
        rw [hunfollowed] at hfollowed
        cases hfollowed
    | approached _ hknown hcloser hvisit =>
        subst hvisit
        exact stopsAt_of_lt (hnoted.below key _ hknown hfollowed) hcloser
    | followed _ _ _ hgoes hvisit =>
        subst hvisit
        exact hgoes

theorem History.noted (hhistory : History options before moments after) (hbefore : before = {}) :
    Noted options moments after := by
  induction hhistory with
  | start =>
      rw [hbefore]
      exact noted_empty
  | step moment _ hfits ih => exact ih.step hfits

/-- What has become due are the reports on the dangling imports of the places whose imports
have been taken up. -/
theorem History.dues_perm (hhistory : History options before moments after) (hbefore : before = {})
    (hwithin : ∀ moment ∈ moments, moment.Within base) :
    (moments.flatMap fun moment => moment.event.dues base).Perm
      ((started moments).flatMap fun place =>
        (base.danglingNames options place.key).map (notFound place)) := by
  induction hhistory with
  | start => exact .rfl
  | @step moments moment hmoments hfits ih =>
      have hearlier := (List.forall_mem_append.mp hwithin).1
      rw [List.flatMap_append, List.flatMap_singleton, started_concat, List.flatMap_append]
      refine (ih hearlier).append ?_
      have hlists := hmoments.lists hbefore hearlier
      obtain ⟨base', walk, event⟩ := moment
      cases event with
      | parse place depth => exact .rfl
      | approach place depth known => exact .rfl
      | report place fullName => exact .rfl
      | follow place visit =>
          simp only [Event.dues, Event.started?]
          cases visit.followed with
          | true => exact .rfl
          | false => simpa using (hlists place.key visit hfits.1).dangling_perm

/-! ## The places within the limit -/

theorem exists_isDistance {n : Nat} (hreaches : base.Reaches options targets n key) :
    ∃ n, base.IsDistance options targets key n :=
  ⟨sInf {m | base.Reaches options targets m key}, Nat.sInf_mem ⟨n, hreaches⟩,
    fun _ hm => Nat.sInf_le hm⟩

/-- At the end the flag is set exactly for the places whose distance is below the limit. -/
theorem Finished.flagged_iff (hfinished : Finished base options targets targets walk)
    (hnoted : Noted options moments walk) (key : String) :
    (∃ visit, walk.visited.get? key = some visit ∧ visit.followed = true) ↔
      walk.visited.contains key = true ∧ ∃ n, base.IsDistance options targets key n ∧
        ∀ limit, options.maxDepth = some limit → n < limit := by
  constructor
  · rintro ⟨visit, hvisit, hfollowed⟩
    refine ⟨Table.contains_of_get? hvisit, ?_⟩
    have hallows := WalkOptions.stopsAt_eq_false_iff.mp (hnoted.below key visit hvisit hfollowed)
    by_cases hlimit : options.maxDepth = none
    · obtain ⟨n, hdistance⟩ := exists_isDistance (hfinished.sound.known key visit hvisit).reaches
      refine ⟨n, hdistance, ?_⟩
      intro limit hsome
      rw [hlimit] at hsome
      cases hsome
    · exact ⟨visit.depth, hfinished.isDistance hlimit hvisit, hallows⟩
  · rintro ⟨-, n, hdistance, hbelow⟩
    have hallows : options.Allows (n + 1) := hbelow
    obtain ⟨visit, hvisit, hdepth⟩ :=
      hfinished.near_of_reaches hdistance.1 (hallows.mono (Nat.le_succ n))
    have hgoes : options.stopsAt visit.depth = false := by
      rw [WalkOptions.stopsAt_eq_false_iff]
      rcases hdepth with hnone | hle
      · exact WalkOptions.allows_of_none hnone
      · exact hallows.mono (Nat.succ_le_succ hle)
    rcases hfinished.closed.settled key visit hvisit with hstops | ⟨hfollowed, -⟩
    · rw [hgoes] at hstops
      cases hstops
    · exact ⟨visit, hvisit, hfollowed⟩

/-- **Every diagnostic is accounted for.**  After runs that all end well the diagnostics are,
up to their order: what collecting the files of each visited place reports, and one report for
each visited place whose distance from the targets is below the limit and each import path that
the place needs and that leads nowhere. -/
theorem runAll_diagnostics (base : Codebase) (options : WalkOptions) (targets : List String)
    {outcomes : List Outcome} {walk : Walk}
    (hruns : runAll base options {} targets = (outcomes, walk))
    (hdone : ∀ outcome ∈ outcomes, outcome = .done) :
    ∃ inner : List Place, (inner.map Place.key).Nodup ∧
      (∀ key, key ∈ inner.map Place.key ↔ walk.visited.contains key = true ∧
        ∃ n, base.IsDistance options targets key n ∧
          ∀ limit, options.maxDepth = some limit → n < limit) ∧
      (∀ place ∈ inner, ∃ path, base.locate path = .ok place) ∧
      walk.diagnostics.Perm (walk.visited.keys.flatMap (base.findings options) ++
        inner.flatMap fun place =>
          (base.danglingNames options place.key).map (notFound place)) := by
  have hruns' : ∀ outcome ∈ (runAll base options {} targets).1, outcome = .done := by
    rw [hruns]
    exact hdone
  obtain ⟨moments, hrecounts⟩ := runAll_recounts targets {} hruns'
  have hfinished := runAll_finished hruns'
  rw [hruns] at hrecounts hfinished
  have hhistory := hrecounts.history
  have hnoted := hhistory.noted rfl
  refine ⟨started moments, hnoted.once, ?_, ?_, ?_⟩
  · intro key
    rw [← hnoted.flagged, hfinished.flagged_iff hnoted]
  · intro place hplace
    obtain ⟨moment, hmoment, hstarted⟩ := List.mem_filterMap.mp hplace
    obtain ⟨visit, hevent, -⟩ := Event.started?_eq_some.mp hstarted
    obtain ⟨path, hlocate⟩ := (hrecounts.within moment hmoment).located
    rw [hevent] at hlocate
    exact ⟨path, hlocate⟩
  · have hunrefused := hrecounts.unrefused rfl
    have hfindings : ((requests moments).flatMap fun request =>
        base.findings options request.place.key).Perm
          (walk.visited.keys.flatMap (base.findings options)) := by
      have hkeys := ((hhistory.tallied rfl).keys_perm hunrefused).flatMap_right
        (base.findings options)
      rwa [List.flatMap_map] at hkeys
    have hreports := (hrecounts.settled rfl).trans (hhistory.dues_perm rfl hrecounts.within)
    exact (hhistory.diagnostics_perm hrecounts.within hunrefused).trans
      (hfindings.append hreports)

set_option maxRecDepth 4000 in
/-- The place `d` is first reached at the limit, through `a` and `c`, and then again through the
shortcut; its import that leads nowhere is reported once. -/
theorem runAll_diagnostics_shortcut :
    (runAll .shortcut { exclude := [], maxDepth := some 3 } {} ["r"]).1 = [.done] ∧
      ∃ inner : List Place, (inner.map Place.key).Nodup ∧
        [notFound ⟨"d", "d"⟩ "gone"].Perm
          ((runAll .shortcut { exclude := [], maxDepth := some 3 } {} ["r"]).2.visited.keys.flatMap
              (Codebase.shortcut.findings { exclude := [], maxDepth := some 3 }) ++
            inner.flatMap fun place =>
              (Codebase.shortcut.danglingNames { exclude := [], maxDepth := some 3 }
                place.key).map (notFound place)) := by
  have hrun : ((runAll .shortcut { exclude := [], maxDepth := some 3 } {} ["r"]).1,
      (runAll .shortcut { exclude := [], maxDepth := some 3 } {} ["r"]).2.diagnostics) =
        ([.done], [notFound ⟨"d", "d"⟩ "gone"]) := by cbv
  obtain ⟨hdone, hdiagnostics⟩ := Prod.mk.inj hrun
  obtain ⟨inner, hnodup, -, -, hperm⟩ := runAll_diagnostics .shortcut
    { exclude := [], maxDepth := some 3 } ["r"] (Prod.ext hdone rfl) (by simp)
  rw [hdiagnostics] at hperm
  exact ⟨hdone, inner, hnodup, hperm⟩

end Walk

end GoAtlas
