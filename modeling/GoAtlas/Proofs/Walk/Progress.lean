import GoAtlas.Proofs.Walk.Collected

/-!
# What a visit achieves

A walk is a depth-first search that marks places before it is done with them, so
that in the middle of a walk some visited places lead to places that are not visited
yet.  What one call of `Walk.visit` achieves is therefore stated relative to the walk
it starts from (`Walk.Progress`): every place that the call enters, or brings closer
to a target, is settled when the call returns, and nothing that was settled is
unsettled.  Places that are still being worked on are exactly those that the call
leaves at the depth they had, so the relation composes along the loop over imports
and through the recursion.

Beside it stands what holds of every walk between calls (`Walk.Sound`): what is
recorded of a place is true of it, and what is stored comes from a visited place.

How a visit may end is `Walk.Ends`: soundly and with progress, or else because some
place in range cannot be read.  That every visit ends so is shown in
`Proofs/Walk/Visit.lean`.
-/

namespace GoAtlas

/-- What is recorded of a visited place is true of it. -/
structure Visit.Known (base : Codebase) (options : WalkOptions) (targets : List String)
    (key : String) (visit : Visit) : Prop where
  reaches : base.Reaches options targets visit.depth key
  allowed : options.Allows visit.depth
  readable : base.Readable options key
  needs : ∀ fullName, (∃ entry ∈ visit.imports.values, entry.fullName = fullName) ↔
    base.Needs options key fullName

namespace Walk

variable (base : Codebase) (options : WalkOptions) (targets : List String)

/-- The place `key` has been visited, and no deeper than `depth` if there is a
limit. -/
def Near (walk : Walk) (key : String) (depth : Nat) : Prop :=
  ∃ visit, walk.visited.get? key = some visit ∧
    (options.maxDepth = none ∨ visit.depth ≤ depth)

/-- Nothing is left to be done for a visited place: its imports are beyond the limit, or
they have been followed and all places they lead to are near. -/
def Settled (walk : Walk) (visit : Visit) : Prop :=
  options.stopsAt visit.depth = true ∨
    visit.followed = true ∧ ∀ entry ∈ visit.imports.values, ∀ path,
      base.resolve? entry.fullName = some path →
        ∃ place, base.locate path = .ok place ∧ walk.Near options place.key (visit.depth + 1)

def notFound (place : Place) (fullName : String) : Diagnostic :=
  ⟨place.path, fullName, .unresolvedImport, fullName ++ " not found"⟩

/-- Every import of a visited place that leads nowhere has been reported, under a path of
that place. -/
def Reported (walk : Walk) (key : String) (visit : Visit) : Prop :=
  ∃ path place, base.locate path = .ok place ∧ place.key = key ∧
    (options.maxDepth = none → place.path ∈ walk.order) ∧
    ∀ entry ∈ visit.imports.values, base.resolve? entry.fullName = none →
      notFound place entry.fullName ∈ walk.diagnostics

/-- A walk between two calls: what it records is true, the paths in its order are
those of the visited places, and its files come from visited places. -/
structure Sound (walk : Walk) : Prop where
  known : ∀ key visit, walk.visited.get? key = some visit →
    visit.Known base options targets key
  listed : ∃ places : List Place, walk.order = places.map Place.path ∧
    (places.map Place.key).Nodup ∧
    ∀ key, walk.visited.contains key = true ↔ key ∈ places.map Place.key
  stored : ∀ package fileName model, walk.world.file? package fileName = some model →
    ∃ key collected, walk.visited.contains key = true ∧
      base.Contributes options key package fileName collected ∧ collected.file = model

/-- What happens to a walk in a call that ends well. -/
structure Progress (before after : Walk) : Prop where
  /-- Visited places stay visited and come closer at most. -/
  grows : ∀ key visit, before.visited.get? key = some visit →
    ∃ later, after.visited.get? key = some later ∧ later.depth ≤ visit.depth ∧
      later.imports = visit.imports ∧ (visit.followed = true → later.followed = true)
  /-- A place is settled unless it is left where it was. -/
  settles : ∀ key later, after.visited.get? key = some later →
    after.Settled base options later ∨
      ∃ visit, before.visited.get? key = some visit ∧ visit.depth = later.depth
  /-- A place whose imports have been followed has its reports, unless they had been
  followed before. -/
  reports : ∀ key later, after.visited.get? key = some later → later.followed = true →
    after.Reported base options key later ∨
      ∃ visit, before.visited.get? key = some visit ∧ visit.followed = true
  order : before.order <+: after.order
  diagnostics : before.diagnostics <+: after.diagnostics

/-- Some place in range cannot be read, if all paths denote places. -/
def Blocked : Prop :=
  base.Located targets →
    ∃ key, base.InRange options targets key ∧ ¬ base.Readable options key

/-- How the visit of a path at some depth may end. -/
def Ends (before : Walk) (path : String) (depth : Nat) : Outcome × Walk → Prop
  | (.done, after) =>
      after.Sound base options targets ∧ before.Progress base options after ∧
        ∃ place, base.locate path = .ok place ∧ after.Near options place.key depth
  | (.failed _, _) => Blocked base options targets
  | (.exhausted, _) => False

/-- A path that a walk is asked to visit at some depth. -/
structure Asked (depth : Nat) (path : String) : Prop where
  origin : path ∈ targets ∨ ∃ fullName, base.resolve? fullName = some path
  reaches : ∀ place, base.locate path = .ok place → base.Reaches options targets depth place.key

/-- The nesting left is enough for a visit at the given depth.  Without a limit every
visit that goes on enters a place, so the places left to enter are counted. -/
def Enough (nesting depth : Nat) (walk : Walk) : Prop :=
  match options.maxDepth with
  | none => (base.places.filter fun key => !walk.visited.contains key).length < nesting
  | some limit => limit < nesting + depth

variable {base options targets} {walk before middle after : Walk} {place : Place}
  {visit : Visit} {key path : String} {depth : Nat}

@[simp] theorem setVisit_visited : (walk.setVisit place visit).visited =
    walk.visited.insert place.key visit := rfl

@[simp] theorem setVisit_order : (walk.setVisit place visit).order = walk.order := rfl

/-! ## Soundness is kept -/

theorem sound_empty : Sound base options targets {} where
  known := by
    intro key visit hget
    cases hget
  listed := ⟨[], rfl, List.nodup_nil, by simp⟩
  stored := by
    intro package fileName model hmodel
    cases hmodel

theorem Sound.reportUnresolved (hsound : walk.Sound base options targets) (fullName : String) :
    (walk.reportUnresolved place fullName).Sound base options targets :=
  ⟨hsound.known, hsound.listed, hsound.stored⟩

theorem Sound.setVisit (hsound : walk.Sound base options targets)
    (hvisited : walk.visited.contains place.key = true)
    (hknown : visit.Known base options targets place.key) :
    (walk.setVisit place visit).Sound base options targets := by
  have hcontains : ∀ key, (walk.setVisit place visit).visited.contains key =
      walk.visited.contains key := by
    intro key
    rw [setVisit_visited, Table.contains_insert]
    by_cases hkey : key = place.key
    · simp [hkey, hvisited]
    · simp [hkey]
  refine ⟨?_, ?_, ?_⟩
  · intro key later hlater
    rw [setVisit_visited, Table.get?_insert] at hlater
    split at hlater
    · rename_i hkey
      cases hlater
      exact hkey ▸ hknown
    · exact hsound.known key later hlater
  · obtain ⟨places, horder, hnodup, hkeys⟩ := hsound.listed
    exact ⟨places, horder, hnodup, fun key => by rw [hcontains]; exact hkeys key⟩
  · intro package fileName model hmodel
    obtain ⟨key, collected, hkey, hcontributes⟩ := hsound.stored package fileName model hmodel
    exact ⟨key, collected, by rw [hcontains]; exact hkey, hcontributes⟩

/-- Entering a place that has not been visited, with the files collected there. -/
theorem Sound.enter (hsound : walk.Sound base options targets)
    (hnew : walk.visited.get? place.key = none)
    (hvisited : middle.visited = walk.visited)
    (horder : middle.order = walk.order ++ [place.path])
    (hfiles : ∀ package fileName model, middle.world.file? package fileName = some model →
      walk.world.file? package fileName = some model ∨
        ∃ collected, base.Contributes options place.key package fileName collected ∧
          collected.file = model)
    (hknown : visit.Known base options targets place.key) :
    (middle.setVisit place visit).Sound base options targets := by
  have hcontains : ∀ key, (middle.setVisit place visit).visited.contains key = true ↔
      key = place.key ∨ walk.visited.contains key = true := by
    intro key
    rw [setVisit_visited, Table.contains_insert, hvisited]
    simp
  refine ⟨?_, ?_, ?_⟩
  · intro key later hlater
    rw [setVisit_visited, Table.get?_insert, hvisited] at hlater
    split at hlater
    · rename_i hkey
      cases hlater
      exact hkey ▸ hknown
    · exact hsound.known key later hlater
  · obtain ⟨places, hpaths, hnodup, hkeys⟩ := hsound.listed
    refine ⟨places ++ [place], ?_, ?_, ?_⟩
    · rw [setVisit_order, horder, hpaths, List.map_append]
      rfl
    · -- A place is entered only once, so its key is not listed yet.
      have hfresh : place.key ∉ places.map Place.key := by
        rw [← hkeys, Table.contains_iff, hnew]
        rintro ⟨visit, hvisit⟩
        cases hvisit
      rw [List.map_append, List.nodup_append]
      refine ⟨hnodup, by simp, ?_⟩
      intro key hkey other hother
      rw [List.map_singleton, List.mem_singleton] at hother
      rintro rfl
      exact hfresh (hother ▸ hkey)
    · intro key
      rw [hcontains, hkeys, List.map_append, List.mem_append, or_comm]
      simp
  · intro package fileName model hmodel
    rcases hfiles package fileName model hmodel with hbefore | ⟨collected, hcontributes, hfile⟩
    · obtain ⟨key, collected, hkey, hrest⟩ := hsound.stored package fileName model hbefore
      exact ⟨key, collected, (hcontains key).mpr (Or.inr hkey), hrest⟩
    · exact ⟨place.key, collected, (hcontains place.key).mpr (Or.inl rfl), hcontributes, hfile⟩

/-! ## Progress composes -/

theorem Near.mono (hnear : before.Near options key depth)
    (hprogress : before.Progress base options after) : after.Near options key depth := by
  obtain ⟨visit, hvisit, hdepth⟩ := hnear
  obtain ⟨later, hlater, hcloser, -⟩ := hprogress.grows key visit hvisit
  exact ⟨later, hlater, hdepth.imp_right hcloser.trans⟩

theorem contains_mono (hprogress : before.Progress base options after)
    (hvisited : before.visited.contains key = true) : after.visited.contains key = true := by
  obtain ⟨visit, hvisit⟩ := Table.contains_iff.mp hvisited
  obtain ⟨later, hlater, -⟩ := hprogress.grows key visit hvisit
  exact Table.contains_of_get? hlater

theorem Progress.refl (walk : Walk) : walk.Progress base options walk where
  grows := fun _ visit hvisit => ⟨visit, hvisit, le_rfl, rfl, id⟩
  settles := fun _ later hlater => Or.inr ⟨later, hlater, rfl⟩
  reports := fun _ later hlater hfollowed => Or.inr ⟨later, hlater, hfollowed⟩
  order := List.prefix_rfl
  diagnostics := List.prefix_rfl

/-- A settled place that stays at its depth stays settled. -/
theorem Settled.mono {later : Visit} (hsettled : before.Settled base options visit)
    (hprogress : before.Progress base options after) (hdepth : later.depth = visit.depth)
    (himports : later.imports = visit.imports)
    (hfollowed : visit.followed = true → later.followed = true) :
    after.Settled base options later := by
  rcases hsettled with hstops | ⟨hvisit, hnear⟩
  · exact Or.inl (by rw [hdepth]; exact hstops)
  · refine Or.inr ⟨hfollowed hvisit, ?_⟩
    intro entry hentry path hresolve
    rw [himports] at hentry
    obtain ⟨place, hlocate, hplace⟩ := hnear entry hentry path hresolve
    rw [hdepth]
    exact ⟨place, hlocate, hplace.mono hprogress⟩

theorem Reported.mono {later : Visit} (hreported : before.Reported base options key visit)
    (hprogress : before.Progress base options after) (himports : later.imports = visit.imports) :
    after.Reported base options key later := by
  obtain ⟨path, place, hlocate, hkey, horder, hdiagnostics⟩ := hreported
  refine ⟨path, place, hlocate, hkey, fun hnone => hprogress.order.subset (horder hnone), ?_⟩
  intro entry hentry hresolve
  rw [himports] at hentry
  exact hprogress.diagnostics.subset (hdiagnostics entry hentry hresolve)

theorem Progress.trans (hfirst : before.Progress base options middle)
    (hsecond : middle.Progress base options after) : before.Progress base options after := by
  refine ⟨?_, ?_, ?_, hfirst.order.trans hsecond.order,
    hfirst.diagnostics.trans hsecond.diagnostics⟩
  · intro key visit hvisit
    obtain ⟨between, hbetween, hdepth, himports, hfollowed⟩ := hfirst.grows key visit hvisit
    obtain ⟨later, hlater, hdepth', himports', hfollowed'⟩ :=
      hsecond.grows key between hbetween
    exact ⟨later, hlater, hdepth'.trans hdepth, himports'.trans himports,
      hfollowed' ∘ hfollowed⟩
  · intro key later hlater
    rcases hsecond.settles key later hlater with hsettled | ⟨between, hbetween, hdepth⟩
    · exact Or.inl hsettled
    · obtain ⟨_, hlater', -, himports, hfollowed⟩ := hsecond.grows key between hbetween
      rw [hlater] at hlater'
      cases hlater'
      rcases hfirst.settles key between hbetween with hsettled | ⟨visit, hvisit, hdepth'⟩
      · exact Or.inl (hsettled.mono hsecond hdepth.symm himports hfollowed)
      · exact Or.inr ⟨visit, hvisit, hdepth'.trans hdepth⟩
  · intro key later hlater hfollowed
    rcases hsecond.reports key later hlater hfollowed with hreported | ⟨between, hbetween, hbefore⟩
    · exact Or.inl hreported
    · obtain ⟨_, hlater', -, himports, -⟩ := hsecond.grows key between hbetween
      rw [hlater] at hlater'
      cases hlater'
      rcases hfirst.reports key between hbetween hbefore with hreported | hvisit
      · exact Or.inl (hreported.mono hsecond himports)
      · exact Or.inr hvisit

theorem Progress.reportUnresolved (walk : Walk) (place : Place) (fullName : String) :
    walk.Progress base options (walk.reportUnresolved place fullName) where
  grows := fun _ visit hvisit => ⟨visit, hvisit, le_rfl, rfl, id⟩
  settles := fun _ later hlater => Or.inr ⟨later, hlater, rfl⟩
  reports := fun _ later hlater hfollowed => Or.inr ⟨later, hlater, hfollowed⟩
  order := List.prefix_rfl
  diagnostics := List.prefix_append _ _

end Walk

end GoAtlas
