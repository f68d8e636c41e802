import GoAtlas.Proofs.Walk.Visit

/-!
# Walking targets one after another

A fresh walk has nothing in progress.  So between the runs of several targets every
visited place is settled, and every import that leads nowhere is reported
(`Walk.Closed`); each run that ends well keeps it so, because whatever the run leaves
alone was settled before.  `runAll_ends` carries this through any number of targets: all
runs end well and the walk is `Finished`, or some run does not and a place in range
cannot be read.
-/

namespace GoAtlas.Walk

variable (base : Codebase) (options : WalkOptions) (targets : List String)

/-- No visited place is in progress. -/
structure Closed (walk : Walk) : Prop where
  settled : ∀ key visit, walk.visited.get? key = some visit → walk.Settled base options visit
  reported : ∀ key visit, walk.visited.get? key = some visit → visit.followed = true →
    walk.Reported base options key visit

/-- A walk after runs of `rest` that all ended well. -/
structure Finished (rest : List String) (walk : Walk) : Prop where
  sound : walk.Sound base options targets
  closed : walk.Closed base options
  near : ∀ target ∈ rest, ∃ place, base.locate target = .ok place ∧ walk.Near options place.key 0

variable {base options targets} {walk before after : Walk} {target : String}

theorem closed_empty : Closed base options {} where
  settled := by
    intro key visit hvisit
    cases hvisit
  reported := by
    intro key visit hvisit
    cases hvisit

/-- Progress from a walk with nothing in progress leaves nothing in progress. -/
theorem Closed.mono (hclosed : before.Closed base options)
    (hprogress : before.Progress base options after) : after.Closed base options := by
  have hsame : ∀ key visit later, before.visited.get? key = some visit →
      after.visited.get? key = some later →
      later.imports = visit.imports ∧ (visit.followed = true → later.followed = true) := by
    intro key visit later hvisit hlater
    obtain ⟨later', hlater', -, himports, hfollowed⟩ := hprogress.grows key visit hvisit
    rw [hlater] at hlater'
    cases hlater'
    exact ⟨himports, hfollowed⟩
  constructor
  · intro key later hlater
    rcases hprogress.settles key later hlater with hsettled | ⟨visit, hvisit, hdepth⟩
    · exact hsettled
    · obtain ⟨himports, hfollowed⟩ := hsame key visit later hvisit hlater
      exact (hclosed.settled key visit hvisit).mono hprogress hdepth.symm himports hfollowed
  · intro key later hlater hflag
    rcases hprogress.reports key later hlater hflag with hreported | ⟨visit, hvisit, hbefore⟩
    · exact hreported
    · obtain ⟨himports, -⟩ := hsame key visit later hvisit hlater
      exact (hclosed.reported key visit hvisit hbefore).mono hprogress himports

theorem enough_nesting (walk : Walk) : Enough base options (base.nesting options) 0 walk := by
  unfold Enough Codebase.nesting
  cases options.maxDepth with
  | none =>
      have hle := List.length_filter_le (fun key => !walk.visited.contains key) base.places
      simp only
      omega
  | some limit =>
      simp only
      omega

theorem run_ends (hsound : walk.Sound base options targets) (htarget : target ∈ targets) :
    Ends base options targets walk target 0 (walk.run base options target) := by
  refine visit_ends (base.nesting options) 0 target walk (enough_nesting walk) hsound ?_ ?_
  · intro limit _
    exact Nat.zero_le limit
  · exact ⟨Or.inl htarget, fun place hlocate => .target htarget hlocate⟩

/-- All runs end well, or some run does not and a place in range cannot be read. -/
theorem runAll_ends (rest : List String) : ∀ walk : Walk, (∀ target ∈ rest, target ∈ targets) →
    walk.Sound base options targets → walk.Closed base options →
      ((∀ outcome ∈ (walk.runAll base options rest).1, outcome = .done) ∧
        walk.Progress base options (walk.runAll base options rest).2 ∧
          Finished base options targets rest (walk.runAll base options rest).2) ∨
      ((∃ outcome ∈ (walk.runAll base options rest).1, outcome ≠ .done) ∧
        Blocked base options targets) := by
  induction rest with
  | nil =>
      intro walk _ hsound hclosed
      exact Or.inl ⟨by simp [runAll], Progress.refl walk, hsound, hclosed, by simp⟩
  | cons target rest ih =>
      intro walk hmem hsound hclosed
      have hends := run_ends hsound (hmem target (List.mem_cons_self ..))
      simp only [runAll]
      generalize walk.run base options target = ended at hends
      obtain ⟨outcome, middle⟩ := ended
      cases outcome with
      | exhausted => exact hends.elim
      | failed fault =>
          exact Or.inr ⟨⟨.failed fault, List.mem_cons_self .., by simp⟩, hends⟩
      | done =>
          obtain ⟨hsoundMiddle, hmiddle, place, hlocate, hnear⟩ := hends
          have hmemRest : ∀ other ∈ rest, other ∈ targets :=
            fun other hother => hmem other (List.mem_cons_of_mem _ hother)
          rcases ih middle hmemRest hsoundMiddle (hclosed.mono hmiddle) with
            ⟨hdone, hafter, hfinished⟩ | ⟨⟨outcome, houtcome, hne⟩, hblocked⟩
          · refine Or.inl ⟨?_, hmiddle.trans hafter, hfinished.sound, hfinished.closed, ?_⟩
            · intro outcome houtcome
              rcases List.mem_cons.mp houtcome with rfl | houtcome
              · rfl
              · exact hdone outcome houtcome
            · intro other hother
              rcases List.mem_cons.mp hother with rfl | hother
              · exact ⟨place, hlocate, hnear.mono hafter⟩
              · exact hfinished.near other hother
          · exact Or.inr ⟨⟨outcome, List.mem_cons_of_mem _ houtcome, hne⟩, hblocked⟩

theorem runAll_finished
    (hdone : ∀ outcome ∈ (runAll base options {} targets).1, outcome = .done) :
    Finished base options targets targets (runAll base options {} targets).2 := by
  rcases runAll_ends targets {} (fun _ h => h) sound_empty closed_empty with
    ⟨-, -, hfinished⟩ | ⟨⟨outcome, houtcome, hne⟩, -⟩
  · exact hfinished
  · exact absurd (hdone outcome houtcome) hne

end GoAtlas.Walk
