import GoAtlas.Proofs.Walk.Progress

/-!
# Arriving at a place

A visit looks a path up and records the place that the path denotes, or it ends there and then
(`arrive`).  Only after that does it follow imports (`visit_succ`).  So what is to be said of a
visit falls into what holds on arrival, by the cases of `Arrives`, and what the recursion over the
imports makes of it.
-/

namespace GoAtlas.Walk

variable {base : Codebase} {options : WalkOptions} {walk middle : Walk} {place : Place}
  {visit : Visit} {depth : Nat} {key path : String} {outcome : Outcome}

/-! ## Places that can be read -/

theorem mem_places_of_packages {packages : Table Package}
    (hpackages : base.packages? key = some packages) : key ∈ base.places := by
  unfold Codebase.packages? at hpackages
  split at hpackages
  · rename_i hcontains
    simpa using hcontains
  · cases hpackages

/-- A place that can be parsed but not collected is not readable. -/
theorem not_readable_of_error {packages : Table Package} {fault : Fault}
    (hpackages : base.packages? key = some packages)
    (hcollect : (collectFiles base options walk Table.empty (options.files packages)).1 =
      .error fault) : ¬ base.Readable options key := by
  intro hreadable
  obtain ⟨imports, hok⟩ := (readable_iff walk Table.empty hpackages).mp hreadable
  rw [hcollect] at hok
  cases hok

/-! ## What a visit does by itself -/

/-- What a visit comes to before it follows any import. -/
inductive Arrival where
  | ends (result : Outcome × Walk)
  /-- The visit goes on with the imports of a place that has been recorded. -/
  | goesOn (place : Place) (visit : Visit) (walk : Walk)

/-- Looks a path up and records the place it denotes, if there is something to follow there. -/
def arrive (base : Codebase) (options : WalkOptions) (depth : Nat) (path : String)
    (walk : Walk) : Arrival :=
  match base.locate path with
  | .error fault => .ends (.failed fault, walk)
  | .ok place =>
      match walk.visited.get? place.key with
      | some known =>
          if known.depth ≤ depth || options.maxDepth.isNone then .ends (.done, walk)
          else .goesOn place { known with depth } (walk.setVisit place { known with depth })
      | none =>
          let asked := { walk with order := walk.order ++ [place.path] }
          match base.packages? place.key with
          | none => .ends (.failed (base.refusal place), asked)
          | some packages =>
              match collectFiles base options asked Table.empty (options.files packages) with
              | (.error fault, middle) => .ends (.failed fault, middle)
              | (.ok imports, middle) =>
                  let new : Visit := { depth, imports, followed := false }
                  .goesOn place new (middle.setVisit place new)

theorem visit_succ (nesting depth : Nat) (path : String) (walk : Walk) :
    Walk.visit base options (nesting + 1) depth path walk =
      match arrive base options depth path walk with
      | .ends result => result
      | .goesOn place visit middle =>
          follow base options (Walk.visit base options nesting (depth + 1)) place depth visit
            middle := by
  simp only [Walk.visit, arrive]
  cases base.locate path with
  | error fault => rfl
  | ok place =>
      simp only
      cases walk.visited.get? place.key with
      | some known =>
          simp only
          split <;> rfl
      | none =>
          simp only
          cases base.packages? place.key with
          | none => rfl
          | some packages =>
              simp only
              generalize collectFiles base options { walk with order := walk.order ++ [place.path] }
                Table.empty (options.files packages) = collected
              obtain ⟨found, middle⟩ := collected
              cases found <;> rfl

/-- The ways to arrive. -/
inductive Arrives (base : Codebase) (options : WalkOptions) (depth : Nat) (path : String)
    (walk : Walk) : Arrival → Prop where
  | unlocated {fault : Fault} (hlocate : base.locate path = .error fault) :
      Arrives base options depth path walk (.ends (.failed fault, walk))
  | returns {place : Place} {known : Visit} (hlocate : base.locate path = .ok place)
      (hvisit : walk.visited.get? place.key = some known) :
      Arrives base options depth path walk (.ends (.done, walk))
  /-- Under a limit a known place is come to closer to a target. -/
  | approaches {place : Place} {known : Visit} (hlocate : base.locate path = .ok place)
      (hvisit : walk.visited.get? place.key = some known) (hlimit : options.maxDepth ≠ none) :
      Arrives base options depth path walk
        (.goesOn place { known with depth } (walk.setVisit place { known with depth }))
  | refused {place : Place} {fault : Fault} {middle : Walk}
      (hlocate : base.locate path = .ok place)
      (hrefused : ¬ base.Readable options place.key) (hvisited : middle.visited = walk.visited) :
      Arrives base options depth path walk (.ends (.failed fault, middle))
  | enters {place : Place} {visit : Visit} {middle : Walk}
      (hlocate : base.locate path = .ok place)
      (hnew : walk.visited.contains place.key = false)
      (hreadable : base.Readable options place.key)
      (himports : ∀ fullName, (∃ entry ∈ visit.imports.values, entry.fullName = fullName) ↔
        base.Needs options place.key fullName)
      (hvisited : middle.visited = walk.visited.insert place.key visit) :
      Arrives base options depth path walk (.goesOn place visit middle)

theorem arrive_arrives : Arrives base options depth path walk
    (arrive base options depth path walk) := by
  unfold arrive
  cases hlocate : base.locate path with
  | error fault => exact .unlocated hlocate
  | ok place =>
      simp only
      cases hvisit : walk.visited.get? place.key with
      | some known =>
          simp only
          split
          · exact .returns hlocate hvisit
          · rename_i hfar
            exact .approaches hlocate hvisit fun hnone => hfar (by simp [hnone])
      | none =>
          simp only
          cases hpackages : base.packages? place.key with
          | none =>
              refine .refused hlocate ?_ rfl
              rintro ⟨packages, hsome, -⟩
              rw [hpackages] at hsome
              cases hsome
          | some packages =>
              simp only
              have hvisited := @collectFiles_visited base options
                { walk with order := walk.order ++ [place.path] } Table.empty
                (options.files packages)
              split <;> rename_i hcollect
              · rw [hcollect] at hvisited
                exact .refused hlocate
                  (not_readable_of_error hpackages (congrArg Prod.fst hcollect)) hvisited
              · rw [hcollect] at hvisited
                have hok := congrArg Prod.fst hcollect
                have hnew := Table.contains_eq_false_iff.mpr hvisit
                refine .enters hlocate hnew ((readable_iff _ _ hpackages).mpr ⟨_, hok⟩)
                  (collectFiles_needs hpackages hok) ?_
                rw [setVisit_visited, hvisited]

/-- A visit that ends on arrival enters no place. -/
theorem arrive_ends (hends : arrive base options depth path walk = .ends (outcome, middle)) :
    outcome ≠ .exhausted ∧ middle.visited = walk.visited := by
  have harrives := @arrive_arrives base options walk depth path
  rw [hends] at harrives
  cases harrives with
  | unlocated _ => exact ⟨by simp, rfl⟩
  | returns _ _ => exact ⟨by simp, rfl⟩
  | refused _ _ hvisited => exact ⟨by simp, hvisited⟩

/-- A visit that goes on has recorded a place, and without a limit the place is a new one. -/
theorem arrive_goesOn (hgoes : arrive base options depth path walk = .goesOn place visit middle) :
    middle.visited = walk.visited.insert place.key visit ∧
      (options.maxDepth = none →
        place.key ∈ base.places ∧ walk.visited.contains place.key = false) := by
  have harrives := @arrive_arrives base options walk depth path
  rw [hgoes] at harrives
  cases harrives with
  | approaches _ _ hlimit => exact ⟨rfl, fun hnone => absurd hnone hlimit⟩
  | enters _ hnew hreadable _ hvisited =>
      obtain ⟨packages, hpackages, -⟩ := hreadable
      exact ⟨hvisited, fun _ => ⟨mem_places_of_packages hpackages, hnew⟩⟩

end GoAtlas.Walk
