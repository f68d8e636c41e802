import GoAtlas.Proofs.Walk.Arrival

/-!
# Every visit ends as it should

`visit_ends` shows of the recursion of `Walk.visit` that a visit with enough nesting
left makes progress and stays sound, or else some place in range cannot be read.  The
loop over imports is treated for any continuation that does so (`followEach_ends`),
and the recursion by induction on the nesting.

A visit goes on in two situations: it enters a new place, or it comes closer to a known
one.  In both it first records the place and changes nothing else (`Walk.Records`), and
otherwise it ends (`arrive_well`).  `follow_ends` compares the walk before the place was
recorded with the walk after its imports have been followed, and uses only that.
-/

namespace GoAtlas.Walk

variable {base : Codebase} {options : WalkOptions} {targets : List String}
  {walk before middle after : Walk} {place : Place} {visit : Visit} {key path : String}
  {depth nesting : Nat}

/-! ## The nesting left -/

theorem Enough.mono (henough : Enough base options nesting depth before)
    (hgrows : ∀ key, before.visited.contains key = true → after.visited.contains key = true) :
    Enough base options nesting depth after := by
  unfold Enough at henough ⊢
  cases hlimit : options.maxDepth with
  | some limit =>
      rw [hlimit] at henough
      exact henough
  | none =>
      rw [hlimit] at henough
      refine lt_of_le_of_lt ?_ henough
      rw [← List.countP_eq_length_filter, ← List.countP_eq_length_filter]
      refine List.countP_mono_left fun key _ hkey => ?_
      cases hbefore : before.visited.contains key with
      | false => rfl
      | true => simp [hgrows key hbefore] at hkey

/-- Without a limit, entering a place uses up one place; with a limit, the depth
grows. -/
theorem Enough.next (henough : Enough base options (nesting + 1) depth before)
    (hplace : options.maxDepth = none →
      place.key ∈ base.places ∧ before.visited.contains place.key = false)
    (hvisited : middle.visited = before.visited.insert place.key visit) :
    Enough base options nesting (depth + 1) middle := by
  unfold Enough at henough ⊢
  cases hlimit : options.maxDepth with
  | some limit =>
      simp only [hlimit] at henough ⊢
      omega
  | none =>
      obtain ⟨hmem, hnew⟩ := hplace hlimit
      simp only [hlimit] at henough ⊢
      have hfilter : (base.places.filter fun key => !middle.visited.contains key) =
          (base.places.filter fun key => !before.visited.contains key).filter
            fun key => decide (key ≠ place.key) := by
        rw [List.filter_filter]
        congr 1
        funext key
        rw [hvisited, Table.contains_insert]
        by_cases hkey : key = place.key <;> simp [hkey]
      have hlt : ((base.places.filter fun key => !before.visited.contains key).filter
          fun key => decide (key ≠ place.key)).length <
          (base.places.filter fun key => !before.visited.contains key).length := by
        rw [List.length_filter_lt_length_iff_exists]
        exact ⟨place.key, List.mem_filter.mpr ⟨hmem, by simp [hnew]⟩, by simp⟩
      rw [hfilter]
      omega

/-! ## The loop over imports -/

/-- What is asked of an import after the loop: the place it leads to is near, or it is
reported. -/
structure Served (base : Codebase) (options : WalkOptions) (place : Place) (depth : Nat)
    (report : Bool) (walk : Walk) (entry : Import) : Prop where
  near : ∀ path, base.resolve? entry.fullName = some path →
    ∃ there, base.locate path = .ok there ∧ walk.Near options there.key (depth + 1)
  reported : report = true → base.resolve? entry.fullName = none →
    notFound place entry.fullName ∈ walk.diagnostics

theorem Served.of_unresolved {report : Bool} {entry : Import}
    (hnone : base.resolve? entry.fullName = none)
    (hreported : report = true → notFound place entry.fullName ∈ walk.diagnostics) :
    Served base options place depth report walk entry := by
  refine ⟨fun path hpath => ?_, fun hreport _ => hreported hreport⟩
  rw [hnone] at hpath
  cases hpath

theorem Served.of_near {report : Bool} {entry : Import} {there : Place}
    (hresolve : base.resolve? entry.fullName = some path) (hlocate : base.locate path = .ok there)
    (hnear : walk.Near options there.key (depth + 1)) :
    Served base options place depth report walk entry := by
  refine ⟨fun path' hpath' => ?_, fun _ hnone => ?_⟩
  · rw [hresolve] at hpath'
    cases hpath'
    exact ⟨there, hlocate, hnear⟩
  · rw [hresolve] at hnone
    cases hnone

theorem Served.mono {report : Bool} {entry : Import}
    (hserved : Served base options place depth report before entry)
    (hprogress : before.Progress base options after) :
    Served base options place depth report after entry := by
  constructor
  · intro path hresolve
    obtain ⟨there, hlocate, hnear⟩ := hserved.near path hresolve
    exact ⟨there, hlocate, hnear.mono hprogress⟩
  · intro hreport hresolve
    exact hprogress.diagnostics.subset (hserved.reported hreport hresolve)

/-- How the loop over some imports of a place may end. -/
def LoopEnds (base : Codebase) (options : WalkOptions) (targets : List String) (place : Place)
    (depth : Nat) (report : Bool) (imports : List Import) (before : Walk) :
    Outcome × Walk → Prop
  | (.done, after) =>
      after.Sound base options targets ∧ before.Progress base options after ∧
        ∀ entry ∈ imports, Served base options place depth report after entry
  | (.failed _, _) => Blocked base options targets
  | (.exhausted, _) => False

/-- One import has been served on the way to `middle`, and the others are served from there. -/
theorem LoopEnds.cons {report : Bool} {entry : Import} {rest : List Import}
    {result : Outcome × Walk} (hprogress : before.Progress base options middle)
    (hserved : Served base options place depth report middle entry)
    (hrest : LoopEnds base options targets place depth report rest middle result) :
    LoopEnds base options targets place depth report (entry :: rest) before result := by
  obtain ⟨outcome, after⟩ := result
  cases outcome with
  | failed fault => exact hrest
  | exhausted => exact hrest
  | done =>
      obtain ⟨hsound, hafter, hall⟩ := hrest
      exact ⟨hsound, hprogress.trans hafter,
        List.forall_mem_cons.mpr ⟨hserved.mono hafter, hall⟩⟩

/-- The loop ends as it should if each visit in it does.  The visits may rely on the
progress made since the walk `start`. -/
theorem followEach_ends {start : Walk} {next : String → Walk → Outcome × Walk} {report : Bool}
    (hnext : ∀ path walk, start.Progress base options walk → walk.Sound base options targets →
      Asked base options targets (depth + 1) path →
        Ends base options targets walk path (depth + 1) (next path walk))
    (hreaches : base.Reaches options targets depth place.key) (imports : List Import) :
    ∀ walk, start.Progress base options walk → walk.Sound base options targets →
      (∀ entry ∈ imports, base.Needs options place.key entry.fullName) →
        LoopEnds base options targets place depth report imports walk
          (followEach base next place report imports walk) := by
  induction imports with
  | nil =>
      intro walk _ hsound _
      exact ⟨hsound, Progress.refl walk, by simp⟩
  | cons entry rest ih =>
      intro walk hstart hsound hneeds
      rw [List.forall_mem_cons] at hneeds
      simp only [followEach]
      cases hresolve : base.resolve? entry.fullName with
      | none =>
          cases report with
          | true =>
              have hmiddle : walk.Progress base options _ :=
                Progress.reportUnresolved walk place entry.fullName
              refine .cons hmiddle (.of_unresolved hresolve fun _ => ?_)
                (ih _ (hstart.trans hmiddle) (hsound.reportUnresolved entry.fullName) hneeds.2)
              exact List.mem_append_right _ (List.mem_singleton_self _)
          | false =>
              exact .cons (Progress.refl walk) (.of_unresolved hresolve nofun)
                (ih walk hstart hsound hneeds.2)
      | some path =>
          have hasked : Asked base options targets (depth + 1) path := by
            refine ⟨Or.inr ⟨entry.fullName, hresolve⟩, ?_⟩
            intro there hlocate
            exact hreaches.step ⟨entry.fullName, path, there, hneeds.1, hresolve, hlocate, rfl⟩
          have hends := hnext path walk hstart hsound hasked
          simp only
          generalize next path walk = ended at hends
          obtain ⟨outcome, middle⟩ := ended
          cases outcome with
          | failed fault => exact hends
          | exhausted => exact hends
          | done =>
              obtain ⟨hsoundMiddle, hmiddle, there, hlocate, hnear⟩ := hends
              exact .cons hmiddle (.of_near hresolve hlocate hnear)
                (ih middle (hstart.trans hmiddle) hsoundMiddle hneeds.2)

/-! ## Following the imports of a recorded place -/

/-- Progress after a place has been recorded is progress from before, if the place itself
is dealt with. -/
theorem Progress.around {recorded : Visit} (hprogress : middle.Progress base options after)
    (hvisited : middle.visited = before.visited.insert place.key recorded)
    (hkept : ∀ known, before.visited.get? place.key = some known →
      recorded.depth ≤ known.depth ∧ recorded.imports = known.imports ∧
        (known.followed = true → recorded.followed = true))
    (hsettled : ∀ later, after.visited.get? place.key = some later →
      after.Settled base options later)
    (hreported : ∀ later, after.visited.get? place.key = some later → later.followed = true →
      after.Reported base options place.key later ∨
        ∃ known, before.visited.get? place.key = some known ∧ known.followed = true)
    (horder : before.order <+: middle.order)
    (hdiagnostics : before.diagnostics <+: middle.diagnostics) :
    before.Progress base options after := by
  have hother : ∀ key, key ≠ place.key →
      middle.visited.get? key = before.visited.get? key := by
    intro key hkey
    rw [hvisited, Table.get?_insert, if_neg hkey]
  refine ⟨?_, ?_, ?_, horder.trans hprogress.order,
    hdiagnostics.trans hprogress.diagnostics⟩
  · intro key known hknown
    by_cases hkey : key = place.key
    · subst hkey
      obtain ⟨hdepth, himports, hfollowed⟩ := hkept known hknown
      have hrecorded : middle.visited.get? place.key = some recorded := by
        rw [hvisited, Table.get?_insert, if_pos rfl]
      obtain ⟨later, hlater, hdepth', himports', hfollowed'⟩ :=
        hprogress.grows place.key recorded hrecorded
      exact ⟨later, hlater, hdepth'.trans hdepth, himports'.trans himports,
        hfollowed' ∘ hfollowed⟩
    · exact hprogress.grows key known ((hother key hkey).trans hknown)
  · intro key later hlater
    by_cases hkey : key = place.key
    · subst hkey
      exact Or.inl (hsettled later hlater)
    · rw [← hother key hkey]
      exact hprogress.settles key later hlater
  · intro key later hlater hfollowed
    by_cases hkey : key = place.key
    · subst hkey
      exact hreported later hlater hfollowed
    · rw [← hother key hkey]
      exact hprogress.reports key later hlater hfollowed

/-- The walk `middle` is `before` with the place recorded, either as a new one or as a
known one that has come closer. -/
structure Records (base : Codebase) (options : WalkOptions) (targets : List String)
    (before : Walk) (place : Place) (visit : Visit) (middle : Walk) : Prop where
  sound : middle.Sound base options targets
  visited : middle.visited = before.visited.insert place.key visit
  kept : ∀ known, before.visited.get? place.key = some known →
    visit.depth ≤ known.depth ∧ visit.imports = known.imports ∧ visit.followed = known.followed
  new : before.visited.get? place.key = none → visit.followed = false
  order : before.order <+: middle.order
  listed : options.maxDepth = none → place.path ∈ middle.order
  diagnostics : before.diagnostics <+: middle.diagnostics

theorem Records.get? (hrecords : Records base options targets before place visit middle) :
    middle.visited.get? place.key = some visit := by
  rw [hrecords.visited, Table.get?_insert, if_pos rfl]

theorem Records.followed (hrecords : Records base options targets before place visit middle)
    (hvisit : visit.followed = true) :
    ∃ known, before.visited.get? place.key = some known ∧ known.followed = true := by
  cases hbefore : before.visited.get? place.key with
  | none =>
      rw [hrecords.new hbefore] at hvisit
      cases hvisit
  | some known =>
      refine ⟨known, rfl, ?_⟩
      rw [← (hrecords.kept known hbefore).2.2]
      exact hvisit

/-- At the limit nothing is left to be done for a recorded place. -/
theorem Records.progress_of_stopsAt
    (hrecords : Records base options targets before place visit middle)
    (hstops : options.stopsAt visit.depth = true) : before.Progress base options middle := by
  have hlast : ∀ later, middle.visited.get? place.key = some later → later = visit := by
    intro later hlater
    rw [hrecords.get?] at hlater
    exact (Option.some.inj hlater).symm
  refine (Progress.refl middle).around hrecords.visited ?_ ?_ ?_ hrecords.order
    hrecords.diagnostics
  · intro known hknown
    obtain ⟨hcloser, himports, hsame⟩ := hrecords.kept known hknown
    exact ⟨hcloser, himports, fun hflag => by rw [hsame]; exact hflag⟩
  · intro later hlater
    rw [hlast later hlater]
    exact Or.inl hstops
  · intro later hlater hflag
    rw [hlast later hlater] at hflag
    exact Or.inr (hrecords.followed hflag)

/-- Below the limit everything is done for a recorded place once its imports have been
served.  The loop starts from the walk that already counts the place as followed. -/
theorem Records.progress_of_served
    (hrecords : Records base options targets before place visit middle)
    (hlocate : base.locate path = .ok place)
    (hprogress : (middle.setVisit place { visit with followed := true }).Progress base options
      after)
    (hserved : ∀ entry ∈ visit.imports.values,
      Served base options place visit.depth (!visit.followed) after entry) :
    before.Progress base options after := by
  have hvisited : (middle.setVisit place { visit with followed := true }).visited =
      before.visited.insert place.key { visit with followed := true } := by
    refine Table.ext_get? fun key => ?_
    rw [setVisit_visited, hrecords.visited]
    simp only [Table.get?_insert]
    split <;> rfl
  have hget : (middle.setVisit place { visit with followed := true }).visited.get? place.key =
      some { visit with followed := true } := by
    rw [hvisited, Table.get?_insert, if_pos rfl]
  obtain ⟨latest, hlatest, hdepth, himports, hflag⟩ := hprogress.grows place.key _ hget
  have hlast : ∀ later, after.visited.get? place.key = some later → later = latest := by
    intro later hlater
    rw [hlatest] at hlater
    exact (Option.some.inj hlater).symm
  refine hprogress.around hvisited ?_ ?_ ?_ hrecords.order hrecords.diagnostics
  · intro known hbefore
    obtain ⟨hcloser, hsame, -⟩ := hrecords.kept known hbefore
    exact ⟨hcloser, hsame, fun _ => rfl⟩
  · intro later hlater
    rw [hlast later hlater]
    -- If a visit in the loop has brought the place closer, that visit has settled it.
    rcases hprogress.settles place.key latest hlatest with hsettled | ⟨same, hsame, heq⟩
    · exact hsettled
    · rw [hget] at hsame
      cases hsame
      refine Or.inr ⟨hflag rfl, ?_⟩
      intro entry hentry path hresolve
      rw [himports] at hentry
      rw [← heq]
      exact (hserved entry hentry).near path hresolve
  · intro later hlater _
    rw [hlast later hlater]
    cases hvisit : visit.followed with
    | true => exact Or.inr (hrecords.followed hvisit)
    | false =>
        refine Or.inl ⟨path, place, hlocate, rfl, ?_, ?_⟩
        · intro hnone
          exact hprogress.order.subset (hrecords.listed hnone)
        · intro entry hentry hresolve
          rw [himports] at hentry
          exact (hserved entry hentry).reported (by rw [hvisit]; rfl) hresolve

/-- Following the imports of a place just recorded in `middle`. -/
theorem follow_ends {next : String → Walk → Outcome × Walk}
    (hlocate : base.locate path = .ok place) (hdepth : visit.depth = depth)
    (hrecords : Records base options targets before place visit middle)
    (hnext : ∀ path walk,
      (∀ key, middle.visited.contains key = true → walk.visited.contains key = true) →
        walk.Sound base options targets → options.Allows (depth + 1) →
          Asked base options targets (depth + 1) path →
            Ends base options targets walk path (depth + 1) (next path walk)) :
    Ends base options targets before path depth
      (follow base options next place depth visit middle) := by
  subst hdepth
  unfold follow
  by_cases hstops : options.stopsAt visit.depth = true
  · rw [if_pos hstops]
    exact ⟨hrecords.sound, hrecords.progress_of_stopsAt hstops, place, hlocate, visit,
      hrecords.get?, Or.inr le_rfl⟩
  · rw [if_neg hstops]
    have hallows : options.Allows (visit.depth + 1) :=
      WalkOptions.stopsAt_eq_false_iff.mp (Bool.eq_false_iff.mpr hstops)
    have hknown : visit.Known base options targets place.key :=
      hrecords.sound.known _ _ hrecords.get?
    obtain ⟨start, hstart⟩ : ∃ start,
        start = middle.setVisit place { visit with followed := true } := ⟨_, rfl⟩
    have hsoundStart : start.Sound base options targets := by
      rw [hstart]
      exact hrecords.sound.setVisit (Table.contains_of_get? hrecords.get?)
        ⟨hknown.reaches, hknown.allowed, hknown.readable, hknown.needs⟩
    have hgrows : ∀ key, middle.visited.contains key = true →
        start.visited.contains key = true := by
      intro key hkey
      rw [hstart, setVisit_visited, Table.contains_insert, hkey, Bool.or_true]
    have hget : start.visited.get? place.key = some { visit with followed := true } := by
      rw [hstart, setVisit_visited, Table.get?_insert, if_pos rfl]
    have hloop : LoopEnds base options targets place visit.depth (!visit.followed)
        visit.imports.values start
          (followEach base next place (!visit.followed) visit.imports.values start) := by
      refine followEach_ends ?_ hknown.reaches visit.imports.values start
        (Progress.refl start) hsoundStart ?_
      · intro path walk hwalk hsoundWalk hasked
        exact hnext path walk (fun key hkey => contains_mono hwalk (hgrows key hkey))
          hsoundWalk hallows hasked
      · intro entry hentry
        exact (hknown.needs entry.fullName).mp ⟨entry, hentry, rfl⟩
    rw [← hstart]
    generalize followEach base next place (!visit.followed) visit.imports.values start = ended
      at hloop
    obtain ⟨outcome, after⟩ := ended
    cases outcome with
    | failed fault => exact hloop
    | exhausted => exact hloop
    | done =>
        obtain ⟨hsoundAfter, hprogress, hserved⟩ := hloop
        obtain ⟨latest, hlatest, hcloser, -⟩ := hprogress.grows place.key _ hget
        refine ⟨hsoundAfter, ?_, place, hlocate, latest, hlatest, Or.inr hcloser⟩
        rw [hstart] at hprogress
        exact hrecords.progress_of_served hlocate hprogress hserved

/-! ## Recording a place -/

/-- Under a limit a known place may come closer. -/
theorem Records.of_known {known : Visit} (hsound : walk.Sound base options targets)
    (hvisit : walk.visited.get? place.key = some known) (hcloser : depth ≤ known.depth)
    (hlimit : options.maxDepth ≠ none)
    (hreaches : base.Reaches options targets depth place.key) (hallows : options.Allows depth) :
    Records base options targets walk place { known with depth }
      (walk.setVisit place { known with depth }) := by
  have hknown := hsound.known place.key known hvisit
  refine ⟨?_, rfl, ?_, ?_, List.prefix_rfl, fun hnone => absurd hnone hlimit, List.prefix_rfl⟩
  · exact hsound.setVisit (Table.contains_of_get? hvisit)
      ⟨hreaches, hallows, hknown.readable, hknown.needs⟩
  · intro known' hknown'
    rw [hvisit] at hknown'
    cases hknown'
    exact ⟨hcloser, rfl, rfl⟩
  · intro hnone
    rw [hvisit] at hnone
    cases hnone

/-- A new place is recorded with what has been collected there. -/
theorem Records.of_new {packages : Table Package} {imports : Table Import}
    (hsound : walk.Sound base options targets) (hnew : walk.visited.get? place.key = none)
    (hreaches : base.Reaches options targets depth place.key) (hallows : options.Allows depth)
    (hpackages : base.packages? place.key = some packages)
    (hcollect : collectFiles base options { walk with order := walk.order ++ [place.path] }
      Table.empty (options.files packages) = (.ok imports, middle)) :
    Records base options targets walk place ⟨depth, imports, false⟩
      (middle.setVisit place ⟨depth, imports, false⟩) := by
  obtain ⟨asked, hasked⟩ : ∃ asked : Walk,
      asked = { walk with order := walk.order ++ [place.path] } := ⟨_, rfl⟩
  rw [← hasked] at hcollect
  have hok : (collectFiles base options asked Table.empty (options.files packages)).1 =
      .ok imports := by rw [hcollect]
  have hmiddle : middle =
      (collectFiles base options asked Table.empty (options.files packages)).2 := by
    rw [hcollect]
  have hvisited : middle.visited = walk.visited := by
    rw [hmiddle, collectFiles_visited, hasked]
  have horder : middle.order = walk.order ++ [place.path] := by
    rw [hmiddle, collectFiles_order, hasked]
  have hdiagnostics : asked.diagnostics <+: middle.diagnostics := by
    rw [hmiddle]
    exact collectFiles_diagnostics _ _ _
  rw [hasked] at hdiagnostics
  refine ⟨?_, ?_, ?_, fun _ => rfl, ?_, ?_, hdiagnostics⟩
  · refine hsound.enter hnew hvisited horder ?_ ⟨hreaches, hallows,
      (readable_iff _ _ hpackages).mpr ⟨imports, hok⟩, collectFiles_needs hpackages hok⟩
    intro package fileName model hmodel
    rw [hmiddle] at hmodel
    rcases collectFiles_file? hmodel with hbefore | ⟨file, collected, hfile, hcollected, hmodel⟩
    · rw [hasked] at hbefore
      exact Or.inl hbefore
    · exact Or.inr ⟨collected, ⟨packages, file, hpackages, hfile, hcollected⟩, hmodel⟩
  · rw [setVisit_visited, hvisited]
  · intro known hknown
    rw [hnew] at hknown
    cases hknown
  · rw [setVisit_order, horder]
    exact List.prefix_append _ _
  · intro _
    rw [setVisit_order, horder]
    exact List.mem_append_right _ (List.mem_singleton_self _)

/-! ## Arriving -/

/-- What a visit should come to on arrival: it ends as it should, or its place is recorded. -/
def ArrivesWell (base : Codebase) (options : WalkOptions) (targets : List String) (before : Walk)
    (path : String) (depth : Nat) : Arrival → Prop
  | .ends result => Ends base options targets before path depth result
  | .goesOn place visit middle =>
      base.locate path = .ok place ∧ visit.depth = depth ∧
        Records base options targets before place visit middle

theorem arrive_well (hsound : walk.Sound base options targets) (hallows : options.Allows depth)
    (hasked : Asked base options targets depth path) :
    ArrivesWell base options targets walk path depth (arrive base options depth path walk) := by
  unfold arrive
  cases hlocate : base.locate path with
  | error fault =>
      -- Only a path that denotes no place gets here.
      intro hlocated
      have hplace : ∃ place, base.locate path = .ok place := by
        rcases hasked.origin with htarget | ⟨fullName, hresolve⟩
        · exact hlocated.1 path htarget
        · exact hlocated.2 fullName path hresolve
      obtain ⟨place, hok⟩ := hplace
      rw [hlocate] at hok
      cases hok
  | ok place =>
      have hreaches := hasked.reaches place hlocate
      simp only
      cases hvisit : walk.visited.get? place.key with
      | some known =>
          simp only
          by_cases hreturn : known.depth ≤ depth ∨ options.maxDepth = none
          · rw [if_pos (by simpa using hreturn)]
            exact ⟨hsound, Progress.refl walk, place, hlocate, known, hvisit, hreturn.symm⟩
          · rw [if_neg (by simpa using hreturn)]
            push Not at hreturn
            obtain ⟨hcloser, hlimit⟩ := hreturn
            exact ⟨hlocate, rfl, .of_known hsound hvisit hcloser.le hlimit hreaches hallows⟩
      | none =>
          have hblocked (hunreadable : ¬ base.Readable options place.key) :
              Blocked base options targets :=
            fun _ => ⟨place.key, ⟨depth, hreaches, hallows⟩, hunreadable⟩
          simp only
          cases hpackages : base.packages? place.key with
          | none =>
              refine hblocked ?_
              rintro ⟨packages, hsome, -⟩
              rw [hpackages] at hsome
              cases hsome
          | some packages =>
              simp only
              generalize hcollect : collectFiles base options
                { walk with order := walk.order ++ [place.path] } Table.empty
                (options.files packages) = result
              obtain ⟨found, middle⟩ := result
              cases found with
              | error fault =>
                  exact hblocked
                    (not_readable_of_error hpackages (congrArg Prod.fst hcollect))
              | ok imports =>
                  exact ⟨hlocate, rfl,
                    .of_new hsound hvisit hreaches hallows hpackages hcollect⟩

/-! ## The recursion -/

/-- A visit with enough nesting left makes progress and stays sound, or some place in
range cannot be read. -/
theorem visit_ends (nesting : Nat) : ∀ depth path walk,
    Enough base options nesting depth walk → walk.Sound base options targets →
      options.Allows depth → Asked base options targets depth path →
        Ends base options targets walk path depth
          (Walk.visit base options nesting depth path walk) := by
  induction nesting with
  | zero =>
      intro depth path walk henough _ hallows _
      unfold Enough at henough
      cases hlimit : options.maxDepth with
      | none => simp [hlimit] at henough
      | some limit =>
          have hle : depth ≤ limit := hallows limit hlimit
          simp only [hlimit] at henough
          omega
  | succ nesting ih =>
      intro depth path walk henough hsound hallows hasked
      have hwell := arrive_well hsound hallows hasked
      rw [visit_succ]
      cases harrive : arrive base options depth path walk with
      | ends result =>
          rw [harrive] at hwell
          exact hwell
      | goesOn place visit middle =>
          rw [harrive] at hwell
          obtain ⟨hlocate, hdepth, hrecords⟩ := hwell
          refine follow_ends hlocate hdepth hrecords ?_
          intro path' walk' hgrows hsound' hallows' hasked'
          refine ih (depth + 1) path' walk' ?_ hsound' hallows' hasked'
          -- Without a limit the place recorded is one less that is left to enter.
          exact (henough.next (arrive_goesOn harrive).2 hrecords.visited).mono hgrows

end GoAtlas.Walk
