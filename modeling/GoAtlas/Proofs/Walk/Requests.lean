import GoAtlas.Proofs.Walk.Exactness
import GoAtlas.Proofs.Walk.History

/-!
# Each place is processed at most once

Parsing is the expensive part of a walk, so no place is parsed again once its files have
been collected.  `runEach_requests` says what this amounts to over any number of runs with
one walk, whether they end well or not: requests are made only for places that are not
visited, the listed paths are those of the requests, and the visited places are those for which
a request has succeeded.  A place is asked for twice only if the first request has
failed, and then not before another run.

The code base may change between runs.  Within a run no place is asked for twice, so what a
place answers at one time and at another makes a difference only from run to run.
-/

namespace GoAtlas

namespace Walk

/-! ## Runs over a changing code base -/

/-- Walks targets one after another, each in the code base as it is at that time and whether
the earlier ones end well or not. -/
def runEach (options : WalkOptions) (walk : Walk) : List (Codebase × String) → List Outcome × Walk
  | [] => ([], walk)
  | (base, target) :: rest =>
      let (outcome, walk) := walk.run base options target
      let (outcomes, walk) := walk.runEach options rest
      (outcome :: outcomes, walk)

/-- What happens in runs one after another. -/
def runEachMoments (options : WalkOptions) (walk : Walk) : List (Codebase × String) → List Moment
  | [] => []
  | (base, target) :: rest =>
      walk.runMoments base options target ++
        (walk.run base options target).2.runEachMoments options rest

variable {base : Codebase} {options : WalkOptions} {before after walk : Walk}
  {moments : List Moment} {moment : Moment} {place : Place} {key : String} {visit : Visit}

theorem runEach_history (calls : List (Codebase × String)) : ∀ walk : Walk,
    History options walk (walk.runEachMoments options calls) (walk.runEach options calls).2 := by
  induction calls with
  | nil =>
      intro walk
      exact .start walk
  | cons call rest ih =>
      intro walk
      obtain ⟨base, target⟩ := call
      exact (run_recounts base options walk target).history.trans (ih _)

/-- If only the last of several runs may fail, only the last event may be a request that is
refused. -/
theorem runEach_ongoing (calls : List (Codebase × String)) : ∀ walk : Walk,
    (∀ outcome ∈ (walk.runEach options calls).1.dropLast, outcome = .done) →
      ∀ moment ∈ (walk.runEachMoments options calls).dropLast, ¬ moment.Refused options := by
  induction calls with
  | nil => simp [runEachMoments]
  | cons call rest ih =>
      intro walk hdone moment hmoment
      obtain ⟨base, target⟩ := call
      have hrun := run_recounts base options walk target
      cases rest with
      | nil =>
          rw [runEachMoments, runEachMoments, List.append_nil] at hmoment
          exact hrun.ongoing moment hmoment
      | cons next rest =>
          simp only [runEach, List.dropLast_cons_cons, List.mem_cons, forall_eq_or_imp] at hdone
          have hunrefused := hrun.unrefused hdone.1
          rw [runEachMoments, List.dropLast_append] at hmoment
          split at hmoment
          · exact hunrefused moment (List.dropLast_subset _ hmoment)
          · rcases List.mem_append.mp hmoment with hmoment | hmoment
            · exact hunrefused moment hmoment
            · exact ih _ hdone.2 moment hmoment

/-! ## What the requests tell of a walk -/

/-- What the requests made so far tell of a walk that was empty at first. -/
structure Tallied (options : WalkOptions) (moments : List Moment) (walk : Walk) : Prop where
  order : walk.order = (requests moments).map fun request => request.place.path
  visited : ∀ key, walk.visited.contains key = true ↔
    ∃ request ∈ requests moments, request.place.key = key ∧ request.Succeeds options
  /-- A place is not asked for again after a request for it has succeeded. -/
  once : (requests moments).Pairwise fun earlier later =>
    earlier.Succeeds options → earlier.place.key ≠ later.place.key

theorem tallied_empty : Tallied options [] {} :=
  ⟨rfl, by simp, .nil⟩

/-- Recording something else of a known place does not change which places are visited. -/
theorem contains_setVisit {known : Visit} (hknown : walk.visited.get? place.key = some known) :
    (walk.setVisit place visit).visited.contains key = walk.visited.contains key := by
  rw [setVisit_visited, Table.contains_insert]
  by_cases hkey : key = place.key
  · simp [hkey, Table.contains_of_get? hknown]
  · simp [hkey]

theorem contains_enter (walk : Walk) (depth : Nat) :
    (walk.enter base options place depth).visited.contains key = true ↔
      walk.visited.contains key = true ∨ place.key = key ∧ base.Readable options place.key := by
  by_cases hreadable : base.Readable options place.key
  · obtain ⟨imports, hvisited⟩ := enter_visited walk depth hreadable
    rw [hvisited, Table.contains_insert, Bool.or_eq_true, decide_eq_true_eq]
    constructor
    · rintro (rfl | hkey)
      · exact Or.inr ⟨rfl, hreadable⟩
      · exact Or.inl hkey
    · rintro (hkey | ⟨rfl, -⟩)
      · exact Or.inr hkey
      · exact Or.inl rfl
  · rw [enter_of_not_readable hreadable]
    simp [hreadable]

/-- An event that is no request leaves alone the order, the world, and which places are
visited. -/
theorem Moment.after_of_no_request (hfits : moment.Fits options) (hnone : moment.request? = none) :
    (moment.after options).order = moment.walk.order ∧
      (moment.after options).world = moment.walk.world ∧
      ∀ key, (moment.after options).visited.contains key = moment.walk.visited.contains key := by
  obtain ⟨base, walk, event⟩ := moment
  cases event with
  | parse place depth => cases hnone
  | approach place depth known => exact ⟨rfl, rfl, fun key => contains_setVisit hfits.1⟩
  | follow place visit => exact ⟨rfl, rfl, fun key => contains_setVisit hfits.1⟩
  | report place fullName => exact ⟨rfl, rfl, fun key => rfl⟩

theorem Tallied.step (htallied : Tallied options moments moment.walk)
    (hfits : moment.Fits options) :
    Tallied options (moments ++ [moment]) (moment.after options) := by
  cases hrequest : moment.request? with
  | none =>
      obtain ⟨horder, -, hvisited⟩ := moment.after_of_no_request hfits hrequest
      have hsame := requests_concat_other hrequest moments
      refine ⟨?_, ?_, ?_⟩
      · rw [horder, hsame]
        exact htallied.order
      · intro key
        rw [hvisited, hsame]
        exact htallied.visited key
      · rw [hsame]
        exact htallied.once
  | some request =>
      obtain ⟨base, walk, event⟩ := moment
      cases event with
      | approach place depth known => cases hrequest
      | follow place visit => cases hrequest
      | report place fullName => cases hrequest
      | parse place depth =>
          have hmore := @requests_concat_parse base moments walk place depth
          rw [Moment.after]
          refine ⟨?_, ?_, ?_⟩
          · rw [enter_order, hmore, htallied.order, List.map_append]
            rfl
          · intro key
            rw [contains_enter, hmore, htallied.visited key]
            simp [or_and_right, exists_or, Request.Succeeds]
          · rw [hmore, List.pairwise_append]
            refine ⟨htallied.once, List.pairwise_singleton _ _, ?_⟩
            intro earlier hearlier later hlater hsucceeds heq
            rw [List.mem_singleton] at hlater
            subst hlater
            -- The place would have been visited when it was asked for again.
            have hvisited : walk.visited.contains place.key = true :=
              (htallied.visited place.key).mpr ⟨earlier, hearlier, heq, hsucceeds⟩
            rw [Table.contains_eq_false_iff.mpr hfits] at hvisited
            cases hvisited

theorem History.tallied (hhistory : History options before moments after) (hbefore : before = {}) :
    Tallied options moments after := by
  induction hhistory with
  | start =>
      rw [hbefore]
      exact tallied_empty
  | step moment _ hfits ih => exact ih.step hfits

theorem not_refused_iff {request : Request} {depth : Nat} :
    ¬ Moment.Refused options ⟨request.base, request.walk, .parse request.place depth⟩ ↔
      request.Succeeds options :=
  not_not

/-- As long as only the last request may be refused, no place is asked for twice. -/
theorem Tallied.nodup (htallied : Tallied options moments walk)
    (hongoing : ∀ moment ∈ moments.dropLast, ¬ moment.Refused options) :
    ((requests moments).map fun request => request.place.key).Nodup := by
  rcases List.eq_nil_or_concat moments with rfl | ⟨first, last, rfl⟩
  · exact List.nodup_nil
  rw [List.concat_eq_append, List.dropLast_concat] at hongoing
  have honce := htallied.once
  rw [List.concat_eq_append, requests_append, List.pairwise_append] at honce
  obtain ⟨hfirst, -, hlast⟩ := honce
  have hsucceeds : ∀ request ∈ requests first, request.Succeeds options := by
    intro request hrequest
    obtain ⟨depth, hmoment⟩ := mem_requests.mp hrequest
    exact not_refused_iff.mp (hongoing _ hmoment)
  rw [List.concat_eq_append, requests_append, List.Nodup, List.pairwise_map, List.pairwise_append]
  refine ⟨?_, ?_, ?_⟩
  · exact hfirst.imp_of_mem fun hearlier _ hne => hne (hsucceeds _ hearlier)
  · cases hrequest : last.request? <;> simp [requests, hrequest]
  · intro earlier hearlier later hlater
    exact hlast earlier hearlier later hlater (hsucceeds earlier hearlier)

/-- Where no request is refused, the visited places are those asked for. -/
theorem Tallied.visited_iff (htallied : Tallied options moments walk)
    (hunrefused : ∀ moment ∈ moments, ¬ moment.Refused options) (key : String) :
    walk.visited.contains key = true ↔
      key ∈ (requests moments).map fun request => request.place.key := by
  rw [htallied.visited, List.mem_map]
  constructor
  · rintro ⟨request, hrequest, hkey, -⟩
    exact ⟨request, hrequest, hkey⟩
  · rintro ⟨request, hrequest, hkey⟩
    obtain ⟨depth, hmoment⟩ := mem_requests.mp hrequest
    exact ⟨request, hrequest, hkey, not_refused_iff.mp (hunrefused _ hmoment)⟩

theorem Tallied.keys_perm (htallied : Tallied options moments walk)
    (hunrefused : ∀ moment ∈ moments, ¬ moment.Refused options) :
    ((requests moments).map fun request => request.place.key).Perm walk.visited.keys := by
  have hnodup := htallied.nodup fun moment hmoment =>
    hunrefused moment (List.dropLast_subset _ hmoment)
  rw [List.perm_ext_iff_of_nodup hnodup walk.visited.keys_nodup]
  intro key
  rw [← htallied.visited_iff hunrefused, Table.mem_keys]

/-- **Each place is processed at most once.**  Over any runs with one walk that is empty at
first: only places that are not visited are asked for; the paths listed are those of the
requests, in their order; a place is visited if and only if a request for it has succeeded,
and it is not asked for again after that; and no place at all is asked for twice up to the
first run that fails. -/
theorem runEach_requests (options : WalkOptions) (calls : List (Codebase × String))
    {outcomes : List Outcome} {walk : Walk} {made : List Request}
    (hruns : runEach options {} calls = (outcomes, walk))
    (hmade : requests (runEachMoments options {} calls) = made) :
    (∀ request ∈ made, request.walk.visited.contains request.place.key = false) ∧
    walk.order = made.map (fun request => request.place.path) ∧
    (∀ key, walk.visited.contains key = true ↔
      ∃ request ∈ made, request.place.key = key ∧ request.Succeeds options) ∧
    (made.Pairwise fun earlier later =>
      earlier.Succeeds options → earlier.place.key ≠ later.place.key) ∧
    ((∀ outcome ∈ outcomes.dropLast, outcome = .done) →
      (made.map fun request => request.place.key).Nodup) := by
  have hhistory := @runEach_history options calls {}
  have htallied := hhistory.tallied rfl
  rw [hruns] at htallied
  subst hmade
  refine ⟨?_, htallied.order, htallied.visited, htallied.once, ?_⟩
  · intro request hrequest
    obtain ⟨depth, hmoment⟩ := mem_requests.mp hrequest
    exact Table.contains_eq_false_iff.mpr (hhistory.fits _ hmoment)
  · intro hdone
    refine htallied.nodup (runEach_ongoing calls {} ?_)
    rw [hruns]
    exact hdone

end Walk

/-! ## A place that is missing for a while -/

/-- The code base with a shortcut, while one of its places cannot be parsed. -/
def Codebase.shortcutWithout (missing : String) : Codebase :=
  { shortcut with parse? := fun key => if key = missing then none else shortcut.parse? key }

/-- Two runs, the second of which fails because `c` is missing. -/
def Codebase.interrupted : List (Codebase × String) :=
  [(.shortcut, "r"), (.shortcutWithout "c", "c")]

set_option maxRecDepth 4000 in
/-- Up to the run that fails no place is asked for twice.  When `c` is back, it is asked for
again. -/
theorem Walk.runEach_requests_interrupted :
    (runEach { exclude := [], maxDepth := some 0 } {} Codebase.interrupted).1 =
        [.done, .failed (.notFound "c")] ∧
      ((requests (runEachMoments { exclude := [], maxDepth := some 0 } {} Codebase.interrupted)).map
        fun request => request.place.key).Nodup ∧
      (runEach { exclude := [], maxDepth := some 0 } {}
        (Codebase.interrupted ++ [(.shortcut, "c")])).2.order = ["r", "c", "c"] := by
  have houtcomes : (runEach { exclude := [], maxDepth := some 0 } {} Codebase.interrupted).1 =
      [.done, .failed (.notFound "c")] := by cbv
  refine ⟨houtcomes, ?_, by cbv⟩
  refine (runEach_requests _ Codebase.interrupted (Prod.ext houtcomes rfl) rfl).2.2.2.2 ?_
  simp

end GoAtlas
