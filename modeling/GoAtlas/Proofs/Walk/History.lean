import GoAtlas.Proofs.Walk.Progress

/-!
# The history of a walk

A walk changes in four ways only: it asks for the packages at a place and collects them, it
comes closer to a place that it knows, it takes up the imports of a place, and it reports that
an import leads nowhere.  An `Event` is one such change.  `visitMoments` lists the events of a
visit in their order, each with the walk that it happens to.

That these lists are complete is `visit_recounts`: starting from the walk before a visit,
every event fits the walk that it happens to, each leads to the walk of the next, and the last
one leads to the walk after the visit.  Nothing is assumed of how the visit ends.  What holds of a
walk at all times, failed runs included, can therefore be shown by induction on `History`,
one event at a time.

Two facts depend on the recursion and are shown along with it.  A request that is refused is
the last event of its visit.  In a visit that ends well, the reports are those that have
become due by taking up imports for the first time.
-/

namespace GoAtlas.Walk

/-! ## Events -/

/-- Asks for the packages at a place and collects their files.  The place is visited if that
succeeds; the path is listed in any case. -/
def enter (base : Codebase) (options : WalkOptions) (place : Place) (depth : Nat)
    (walk : Walk) : Walk :=
  let asked := { walk with order := walk.order ++ [place.path] }
  match base.packages? place.key with
  | none => asked
  | some packages =>
      match collectFiles base options asked Table.empty (options.files packages) with
      | (.error _, middle) => middle
      | (.ok imports, middle) => middle.setVisit place ⟨depth, imports, false⟩

/-- What can happen to a walk. -/
inductive Event where
  /-- The packages at a place are asked for. -/
  | parse (place : Place) (depth : Nat)
  /-- A known place is reached again, closer to a target. -/
  | approach (place : Place) (depth : Nat) (known : Visit)
  /-- The imports of a visited place are taken up. -/
  | follow (place : Place) (visit : Visit)
  /-- An import of a place leads nowhere. -/
  | report (place : Place) (fullName : String)

/-- The place that an event is about. -/
def Event.place : Event → Place
  | .parse place _ => place
  | .approach place _ _ => place
  | .follow place _ => place
  | .report place _ => place

/-- An event, the walk that it happens to, and the code base at that time. -/
structure Moment where
  base : Codebase
  walk : Walk
  event : Event

namespace Moment

/-- The walk after an event. -/
def after (options : WalkOptions) (moment : Moment) : Walk :=
  match moment.event with
  | .parse place depth => moment.walk.enter moment.base options place depth
  | .approach place depth known => moment.walk.setVisit place { known with depth }
  | .follow place visit => moment.walk.setVisit place { visit with followed := true }
  | .report place fullName => moment.walk.reportUnresolved place fullName

/-- The event can happen to its walk: only unknown places are asked for, what is said of a
known place is true, and imports are taken up below the limit. -/
def Fits (options : WalkOptions) (moment : Moment) : Prop :=
  match moment.event with
  | .parse place _ => moment.walk.visited.get? place.key = none
  | .approach place depth known =>
      moment.walk.visited.get? place.key = some known ∧ depth < known.depth
  | .follow place visit =>
      moment.walk.visited.get? place.key = some visit ∧ options.stopsAt visit.depth = false
  | .report _ fullName => moment.base.resolve? fullName = none

/-- The event happens in the given code base, at a place that some path denotes. -/
structure Within (base : Codebase) (moment : Moment) : Prop where
  base_eq : moment.base = base
  located : ∃ path, base.locate path = .ok moment.event.place

/-- The event is a request that fails: the place cannot be parsed, or a file there cannot be
collected. -/
def Refused (options : WalkOptions) (moment : Moment) : Prop :=
  match moment.event with
  | .parse place _ => ¬ moment.base.Readable options place.key
  | _ => False

end Moment

namespace Event

/-- The report that an event makes, if any. -/
def reports : Event → List Diagnostic
  | .report place fullName => [notFound place fullName]
  | _ => []

/-- The reports on imports of a place that lead nowhere. -/
def dangling (base : Codebase) (place : Place) (imports : List Import) : List Diagnostic :=
  (imports.filter fun entry => (base.resolve? entry.fullName).isNone).map fun entry =>
    notFound place entry.fullName

/-- The reports that become due with an event.  Those on the imports of a place become due
when these are taken up for the first time. -/
def dues (base : Codebase) : Event → List Diagnostic
  | .follow place visit =>
      if visit.followed then [] else dangling base place visit.imports.values
  | _ => []

end Event

/-! ## Histories -/

/-- `History options before moments after`: the events of `moments` lead from `before` to
`after`. -/
inductive History (options : WalkOptions) : Walk → List Moment → Walk → Prop where
  | start (walk : Walk) : History options walk [] walk
  | step {before : Walk} {moments : List Moment} (moment : Moment)
      (hbefore : History options before moments moment.walk) (hfits : moment.Fits options) :
      History options before (moments ++ [moment]) (moment.after options)

variable {base : Codebase} {options : WalkOptions} {before middle after walk : Walk}
  {moments later : List Moment} {place : Place} {depth : Nat} {key : String}

theorem History.trans (hfirst : History options before moments middle)
    (hsecond : History options middle later after) :
    History options before (moments ++ later) after := by
  induction hsecond with
  | start => rwa [List.append_nil]
  | step moment _ hfits ih =>
      rw [← List.append_assoc]
      exact .step moment ih hfits

theorem History.cons (moment : Moment) (hfits : moment.Fits options)
    (hrest : History options (moment.after options) moments after) :
    History options moment.walk (moment :: moments) after :=
  (History.step moment (.start moment.walk) hfits).trans hrest

/-- Every event of a history fits. -/
theorem History.fits (hhistory : History options before moments after) :
    ∀ moment ∈ moments, moment.Fits options := by
  induction hhistory with
  | start => simp
  | step moment _ hfits ih =>
      intro other hother
      rcases List.mem_append.mp hother with hother | hother
      · exact ih other hother
      · rw [List.mem_singleton.mp hother]
        exact hfits

/-! ## Entering a place -/

@[simp] theorem enter_order :
    (walk.enter base options place depth).order = walk.order ++ [place.path] := by
  unfold enter
  cases base.packages? place.key with
  | none => rfl
  | some packages =>
      have horder := @collectFiles_order base options
        { walk with order := walk.order ++ [place.path] } Table.empty (options.files packages)
      simp only
      split <;> rename_i hcollect <;> rw [hcollect] at horder <;> exact horder

/-- A readable place is entered with the imports that its files need. -/
theorem enter_of_readable (walk : Walk) (depth : Nat)
    (hreadable : base.Readable options place.key) :
    ∃ packages imports middle, base.packages? place.key = some packages ∧
      collectFiles base options { walk with order := walk.order ++ [place.path] } Table.empty
        (options.files packages) = (.ok imports, middle) ∧
      walk.enter base options place depth = middle.setVisit place ⟨depth, imports, false⟩ := by
  obtain ⟨packages, hpackages, -⟩ := id hreadable
  obtain ⟨imports, hok⟩ := (readable_iff { walk with order := walk.order ++ [place.path] }
    Table.empty hpackages).mp hreadable
  generalize hcollect : collectFiles base options
    { walk with order := walk.order ++ [place.path] } Table.empty (options.files packages) =
      result at hok
  obtain ⟨found, middle⟩ := result
  cases hok
  refine ⟨packages, imports, middle, hpackages, hcollect, ?_⟩
  simp [enter, hpackages, hcollect]

/-- A place that is not readable is not entered. -/
theorem enter_of_not_readable (hunreadable : ¬ base.Readable options place.key) :
    (walk.enter base options place depth).visited = walk.visited := by
  unfold enter
  cases hpackages : base.packages? place.key with
  | none => rfl
  | some packages =>
      have hvisited := @collectFiles_visited base options
        { walk with order := walk.order ++ [place.path] } Table.empty (options.files packages)
      simp only
      split
      · rename_i hcollect
        rw [hcollect] at hvisited
        exact hvisited
      · rename_i imports middle hcollect
        exact absurd ((readable_iff _ _ hpackages).mpr ⟨imports, congrArg Prod.fst hcollect⟩)
          hunreadable

theorem enter_visited (walk : Walk) (depth : Nat) (hreadable : base.Readable options place.key) :
    ∃ imports, (walk.enter base options place depth).visited =
      walk.visited.insert place.key ⟨depth, imports, false⟩ := by
  obtain ⟨packages, imports, middle, -, hcollect, henter⟩ :=
    enter_of_readable walk depth hreadable
  refine ⟨imports, ?_⟩
  rw [henter, setVisit_visited]
  have hvisited := @collectFiles_visited base options
    { walk with order := walk.order ++ [place.path] } Table.empty (options.files packages)
  rw [hcollect] at hvisited
  rw [hvisited]

/-! ## Requests -/

/-- A request for the packages at a place. -/
structure Request where
  base : Codebase
  /-- The walk that makes the request. -/
  walk : Walk
  place : Place

/-- The place can be parsed, and its files can be collected. -/
def Request.Succeeds (options : WalkOptions) (request : Request) : Prop :=
  request.base.Readable options request.place.key

/-- The request that is made at a moment, if any. -/
def Moment.request? (moment : Moment) : Option Request :=
  match moment.event with
  | .parse place _ => some ⟨moment.base, moment.walk, place⟩
  | _ => none

/-- The requests among the events, in order. -/
def requests (moments : List Moment) : List Request :=
  moments.filterMap Moment.request?

@[simp] theorem requests_nil : requests [] = [] := rfl

@[simp] theorem requests_append (moments later : List Moment) :
    requests (moments ++ later) = requests moments ++ requests later :=
  List.filterMap_append

theorem requests_concat_parse (moments : List Moment) (walk : Walk) (place : Place)
    (depth : Nat) : requests (moments ++ [⟨base, walk, .parse place depth⟩]) =
      requests moments ++ [⟨base, walk, place⟩] := by
  rw [requests_append]
  rfl

theorem requests_concat_other {moment : Moment} (hnone : moment.request? = none)
    (moments : List Moment) : requests (moments ++ [moment]) = requests moments := by
  simp [requests, hnone]

theorem mem_requests {request : Request} :
    request ∈ requests moments ↔ ∃ depth,
      (⟨request.base, request.walk, .parse request.place depth⟩ : Moment) ∈ moments := by
  rw [requests, List.mem_filterMap]
  constructor
  · rintro ⟨⟨base, walk, event⟩, hmem, hrequest⟩
    cases event with
    | parse place depth =>
        cases hrequest
        exact ⟨depth, hmem⟩
    | approach place depth known => cases hrequest
    | follow place visit => cases hrequest
    | report place fullName => cases hrequest
  · rintro ⟨depth, hmem⟩
    exact ⟨_, hmem, rfl⟩

/-! ## What happens in a visit -/

/-- What happens while imports are followed one after another with `next`, given what
happens in each visit. -/
def followEachMoments (base : Codebase) (next : String → Walk → Outcome × Walk)
    (moments : String → Walk → List Moment) (place : Place) (report : Bool) :
    List Import → Walk → List Moment
  | [], _ => []
  | entry :: rest, walk =>
      match base.resolve? entry.fullName with
      | some path =>
          match next path walk with
          | (.done, after) =>
              moments path walk ++ followEachMoments base next moments place report rest after
          | _ => moments path walk
      | none =>
          if report then
            ⟨base, walk, .report place entry.fullName⟩ ::
              followEachMoments base next moments place report rest
                (walk.reportUnresolved place entry.fullName)
          else followEachMoments base next moments place report rest walk

/-- What happens while the imports of a place visited at the given depth are followed. -/
def followMoments (base : Codebase) (options : WalkOptions)
    (next : String → Walk → Outcome × Walk) (moments : String → Walk → List Moment)
    (place : Place) (depth : Nat) (visit : Visit) (walk : Walk) : List Moment :=
  if options.stopsAt depth then []
  else
    ⟨base, walk, .follow place visit⟩ ::
      followEachMoments base next moments place (!visit.followed) visit.imports.values
        (walk.setVisit place { visit with followed := true })

/-- What happens in a visit. -/
def visitMoments (base : Codebase) (options : WalkOptions) :
    (nesting depth : Nat) → String → Walk → List Moment
  | 0, _, _, _ => []
  | nesting + 1, depth, path, walk =>
      match base.locate path with
      | .error _ => []
      | .ok place =>
          match walk.visited.get? place.key with
          | some known =>
              if known.depth ≤ depth || options.maxDepth.isNone then []
              else
                let closer := { known with depth }
                ⟨base, walk, .approach place depth known⟩ ::
                  followMoments base options (visit base options nesting (depth + 1))
                    (visitMoments base options nesting (depth + 1)) place depth closer
                    (walk.setVisit place closer)
          | none =>
              ⟨base, walk, .parse place depth⟩ ::
                match base.packages? place.key with
                | none => []
                | some packages =>
                    match collectFiles base options
                      { walk with order := walk.order ++ [place.path] } Table.empty
                      (options.files packages) with
                    | (.error _, _) => []
                    | (.ok imports, middle) =>
                        let new : Visit := { depth, imports, followed := false }
                        followMoments base options (visit base options nesting (depth + 1))
                          (visitMoments base options nesting (depth + 1)) place depth new
                          (middle.setVisit place new)

/-- What happens when a target is walked. -/
def runMoments (base : Codebase) (options : WalkOptions) (walk : Walk) (target : String) :
    List Moment :=
  visitMoments base options (base.nesting options) 0 target walk

/-! ## The recursion -/

/-- `moments` is what happens on the way from `before` to the result of a part of a walk.
Reports that are owed from before are made if the part ends well. -/
structure Recounts (base : Codebase) (options : WalkOptions) (owed : List Diagnostic)
    (before : Walk) (moments : List Moment) (result : Outcome × Walk) : Prop where
  history : History options before moments result.2
  within : ∀ moment ∈ moments, moment.Within base
  /-- Nothing happens after a request that is refused. -/
  ongoing : ∀ moment ∈ moments.dropLast, ¬ moment.Refused options
  unrefused : result.1 = .done → ∀ moment ∈ moments, ¬ moment.Refused options
  settled : result.1 = .done →
    (moments.flatMap fun moment => moment.event.reports).Perm
      (owed ++ moments.flatMap fun moment => moment.event.dues base)

variable {owed owedLater : List Diagnostic} {result : Outcome × Walk}

/-- Nothing happens in a part of a walk that changes nothing and owes nothing. -/
theorem Recounts.nil (outcome : Outcome) :
    Recounts base options [] before [] (outcome, before) :=
  ⟨.start before, by simp, by simp, by simp, by simp⟩

/-- A request that is refused ends the walk. -/
theorem Recounts.refused {fault : Fault} {path : String}
    (hlocate : base.locate path = .ok place) (hnew : before.visited.get? place.key = none) :
    Recounts base options owed before [⟨base, before, .parse place depth⟩]
      (.failed fault, before.enter base options place depth) := by
  refine ⟨.step ⟨base, before, .parse place depth⟩ (.start before) hnew, ?_, by simp, by simp,
    by simp⟩
  intro moment hmoment
  rw [List.mem_singleton.mp hmoment]
  exact ⟨rfl, path, hlocate⟩

/-- One event and what follows it. -/
theorem Recounts.cons (moment : Moment) (hwithin : moment.Within base)
    (hfits : moment.Fits options) (hgoes : ¬ moment.Refused options)
    (hrest : Recounts base options owedLater (moment.after options) moments result)
    (howed : (moment.event.reports ++ owedLater).Perm (owed ++ moment.event.dues base)) :
    Recounts base options owed moment.walk (moment :: moments) result := by
  refine ⟨.cons moment hfits hrest.history, ?_, ?_, ?_, ?_⟩
  · intro other hother
    rcases List.mem_cons.mp hother with rfl | hother
    · exact hwithin
    · exact hrest.within other hother
  · intro other hother
    cases moments with
    | nil => simp at hother
    | cons next rest =>
        rw [List.dropLast_cons_cons] at hother
        rcases List.mem_cons.mp hother with rfl | hother
        · exact hgoes
        · exact hrest.ongoing other hother
  · intro hdone other hother
    rcases List.mem_cons.mp hother with rfl | hother
    · exact hgoes
    · exact hrest.unrefused hdone other hother
  · intro hdone
    simp only [List.flatMap_cons]
    refine ((hrest.settled hdone).append_left _).trans ?_
    rw [← List.append_assoc, ← List.append_assoc]
    exact howed.append_right _

/-- A part that ends well and what follows it. -/
theorem Recounts.trans (hfirst : Recounts base options owed before moments (.done, middle))
    (hsecond : Recounts base options owedLater middle later result) :
    Recounts base options (owed ++ owedLater) before (moments ++ later) result := by
  have hunrefused := hfirst.unrefused rfl
  refine ⟨hfirst.history.trans hsecond.history, ?_, ?_, ?_, ?_⟩
  · intro moment hmoment
    rcases List.mem_append.mp hmoment with hmoment | hmoment
    · exact hfirst.within moment hmoment
    · exact hsecond.within moment hmoment
  · intro moment hmoment
    rw [List.dropLast_append] at hmoment
    split at hmoment
    · exact hunrefused moment (List.dropLast_subset _ hmoment)
    · rcases List.mem_append.mp hmoment with hmoment | hmoment
      · exact hunrefused moment hmoment
      · exact hsecond.ongoing moment hmoment
  · intro hdone moment hmoment
    rcases List.mem_append.mp hmoment with hmoment | hmoment
    · exact hunrefused moment hmoment
    · exact hsecond.unrefused hdone moment hmoment
  · intro hdone
    rw [List.flatMap_append, List.flatMap_append]
    refine ((hfirst.settled rfl).append (hsecond.settled hdone)).trans ?_
    rw [List.append_assoc, List.append_assoc]
    refine List.Perm.append_left owed ?_
    rw [← List.append_assoc, ← List.append_assoc]
    exact List.perm_append_comm.append_right _

/-- The reports of a part that does not end well do not matter. -/
theorem Recounts.of_ne_done (hrecounts : Recounts base options owed before moments result)
    (hended : result.1 ≠ .done) : Recounts base options owedLater before moments result :=
  ⟨hrecounts.history, hrecounts.within, hrecounts.ongoing, hrecounts.unrefused,
    fun hdone => absurd hdone hended⟩

/-- The loop over imports owes the reports on those that lead nowhere, if they are to be
reported. -/
theorem followEach_recounts {next : String → Walk → Outcome × Walk}
    {moments : String → Walk → List Moment} {path : String} (report : Bool)
    (hlocate : base.locate path = .ok place)
    (hnext : ∀ path walk, Recounts base options [] walk (moments path walk) (next path walk))
    (imports : List Import) : ∀ walk,
      Recounts base options (if report then Event.dangling base place imports else []) walk
        (followEachMoments base next moments place report imports walk)
        (followEach base next place report imports walk) := by
  induction imports with
  | nil =>
      intro walk
      rw [show Event.dangling base place [] = [] from rfl, ite_self]
      exact .nil .done
  | cons entry rest ih =>
      intro walk
      simp only [followEachMoments, followEach]
      cases hresolve : base.resolve? entry.fullName with
      | some there =>
          have hvisit := hnext there walk
          have hdangling : Event.dangling base place (entry :: rest) =
              Event.dangling base place rest := by
            simp [Event.dangling, hresolve]
          rw [hdangling]
          simp only
          generalize next there walk = ended at hvisit
          obtain ⟨outcome, middle⟩ := ended
          cases outcome with
          | done => simpa using hvisit.trans (ih middle)
          | failed fault => exact hvisit.of_ne_done (by simp)
          | exhausted => exact hvisit.of_ne_done (by simp)
      | none =>
          have hdangling : Event.dangling base place (entry :: rest) =
              notFound place entry.fullName :: Event.dangling base place rest := by
            simp [Event.dangling, hresolve]
          rw [hdangling]
          cases report with
          | false => exact ih walk
          | true =>
              refine Recounts.cons ⟨base, walk, .report place entry.fullName⟩
                ⟨rfl, path, hlocate⟩ hresolve id (ih _) ?_
              simp [Event.reports, Event.dues]

/-- Following the imports of a place that has just been recorded owes nothing: what
becomes due is reported in the loop. -/
theorem follow_recounts {next : String → Walk → Outcome × Walk}
    {moments : String → Walk → List Moment} {visit : Visit} {path : String}
    (hlocate : base.locate path = .ok place) (hdepth : visit.depth = depth)
    (hvisit : walk.visited.get? place.key = some visit)
    (hnext : ∀ path walk, Recounts base options [] walk (moments path walk) (next path walk)) :
    Recounts base options [] walk
      (followMoments base options next moments place depth visit walk)
      (follow base options next place depth visit walk) := by
  subst hdepth
  unfold followMoments follow
  by_cases hstops : options.stopsAt visit.depth = true
  · rw [if_pos hstops, if_pos hstops]
    exact .nil .done
  · rw [if_neg hstops, if_neg hstops]
    refine Recounts.cons ⟨base, walk, .follow place visit⟩ ⟨rfl, path, hlocate⟩
      ⟨hvisit, Bool.eq_false_iff.mpr hstops⟩ id
      (followEach_recounts (!visit.followed) hlocate hnext visit.imports.values _) ?_
    cases hfollowed : visit.followed <;> simp [Event.reports, Event.dues, hfollowed]

/-- The list of what happens in a visit is complete, however the visit ends. -/
theorem visit_recounts (nesting : Nat) : ∀ depth path walk,
    Recounts base options [] walk (visitMoments base options nesting depth path walk)
      (visit base options nesting depth path walk) := by
  induction nesting with
  | zero =>
      intro depth path walk
      exact .nil .exhausted
  | succ nesting ih =>
      intro depth path walk
      simp only [visitMoments, visit]
      cases hlocate : base.locate path with
      | error fault => exact .nil _
      | ok place =>
          simp only
          cases hvisit : walk.visited.get? place.key with
          | some known =>
              simp only
              by_cases hreturn : (decide (known.depth ≤ depth) || options.maxDepth.isNone) = true
              · rw [if_pos hreturn, if_pos hreturn]
                exact .nil .done
              · rw [if_neg hreturn, if_neg hreturn]
                have hcloser : depth < known.depth := by
                  have hnot : ¬ known.depth ≤ depth := fun hle => hreturn (by simp [hle])
                  omega
                refine Recounts.cons ⟨base, walk, .approach place depth known⟩
                  ⟨rfl, path, hlocate⟩ ⟨hvisit, hcloser⟩ id
                  (follow_recounts hlocate rfl ?_ (ih (depth + 1))) .rfl
                rw [Moment.after, setVisit_visited, Table.get?_insert, if_pos rfl]
          | none =>
              simp only
              cases hpackages : base.packages? place.key with
              | none =>
                  have hend : { walk with order := walk.order ++ [place.path] } =
                      walk.enter base options place depth := by
                    simp [enter, hpackages]
                  simp only
                  rw [hend]
                  exact .refused hlocate hvisit
              | some packages =>
                  simp only
                  generalize hcollect : collectFiles base options
                    { walk with order := walk.order ++ [place.path] } Table.empty
                    (options.files packages) = collected
                  obtain ⟨found, middle⟩ := collected
                  cases found with
                  | error fault =>
                      have hend : middle = walk.enter base options place depth := by
                        simp [enter, hpackages, hcollect]
                      simp only
                      rw [hend]
                      exact .refused hlocate hvisit
                  | ok imports =>
                      have hend : middle.setVisit place ⟨depth, imports, false⟩ =
                          walk.enter base options place depth := by
                        simp [enter, hpackages, hcollect]
                      have hreadable : base.Readable options place.key :=
                        (readable_iff _ _ hpackages).mpr ⟨imports, congrArg Prod.fst hcollect⟩
                      refine Recounts.cons ⟨base, walk, .parse place depth⟩
                        ⟨rfl, path, hlocate⟩ hvisit (not_not.mpr hreadable) ?_ .rfl
                      simp only [Moment.after]
                      rw [← hend]
                      refine follow_recounts hlocate rfl ?_ (ih (depth + 1))
                      rw [setVisit_visited, Table.get?_insert, if_pos rfl]

theorem run_recounts (base : Codebase) (options : WalkOptions) (walk : Walk) (target : String) :
    Recounts base options [] walk (walk.runMoments base options target)
      (walk.run base options target) :=
  visit_recounts (base.nesting options) 0 target walk

/-- Runs that all end well have a history without refusals, in which all reports that become
due are made. -/
theorem runAll_recounts (targets : List String) : ∀ walk : Walk,
    (∀ outcome ∈ (walk.runAll base options targets).1, outcome = .done) →
      ∃ moments, Recounts base options [] walk moments
        (.done, (walk.runAll base options targets).2) := by
  induction targets with
  | nil =>
      intro walk _
      exact ⟨[], .nil .done⟩
  | cons target rest ih =>
      intro walk hdone
      have hrun := run_recounts base options walk target
      simp only [runAll, List.mem_cons, forall_eq_or_imp] at hdone ⊢
      obtain ⟨later, hlater⟩ := ih _ hdone.2
      generalize walk.run base options target = ended at hrun hdone hlater
      obtain ⟨outcome, middle⟩ := ended
      obtain ⟨hfirst, -⟩ := hdone
      cases hfirst
      exact ⟨_, hrun.trans hlater⟩

end GoAtlas.Walk
