import GoAtlas.Proofs.Locate
import GoAtlas.Proofs.Text.Slices

/-!
# Which module an import path lies in

An import path lies in a module if it is the path of the module or continues it after a slash
(`LiesIn`), so a path that only begins with the same characters does not.  Of the required modules
that it lies in, the one with the longest path provides it, and of equally long ones the last
(`requirementFor?_eq_some_iff`).

Because the import path begins with the path of the module that provides it, it can be cut right
behind it (`slice?_of_requirementFor?`), and what stands there leads from the directory of the
module to the directory of the package (`components_cachedPath?`).  `looksUp` puts this together.
-/

namespace GoAtlas

namespace Path

variable {dir path : String} {segments : List String}

/-! ## Joining segments one after another -/

theorem join_ne_empty (hdir : dir ≠ "") : join dir path ≠ "" := by
  have hempty : dir.isEmpty = false := by simpa using hdir
  unfold join
  split
  case isTrue habsolute =>
    rw [hempty, Bool.or_false] at habsolute
    rintro rfl
    cases habsolute
  case isFalse => split <;> simp [hdir]

/-- A relative path adds its names to the components of the directory that it is joined to. -/
theorem components_join_of_relative (hdir : dir ≠ "") (hrelative : isAbsolute path = false) :
    components (join dir path) = components dir ++ names path := by
  obtain ⟨front, hpieces, ⟨hnone, -⟩ | ⟨-, hne, hhead, hfilter⟩⟩ := pieces_join dir hrelative
  · exact absurd hnone hdir
  · rw [components_eq, isAbsolute_join hdir hrelative, hpieces, head?_append hne, hhead,
      List.filter_append, hfilter, ← List.append_assoc, ← components_eq, names]

theorem components_foldl_join (hdir : dir ≠ "") (hfree : ∀ name ∈ segments, '/' ∉ name.toList) :
    components (segments.foldl join dir) =
      components dir ++ segments.filter fun piece => !isFiller piece := by
  induction segments generalizing dir with
  | nil => simp
  | cons name segments ih =>
      obtain ⟨hname, hfree⟩ := List.forall_mem_cons.mp hfree
      have hrelative : isAbsolute name = false := by
        rw [Bool.eq_false_iff]
        intro habsolute
        exact hname (List.mem_of_mem_head? (beq_iff_eq.mp habsolute))
      rw [List.foldl_cons, ih (join_ne_empty hdir) hfree,
        components_join_of_relative hdir hrelative, names, pieces_of_not_mem hname,
        List.append_assoc, ← List.filter_append, List.singleton_append]

/-- Slashes in front make no names. -/
theorem names_dropWhile (text : List Char) :
    names (String.ofList (text.dropWhile (· == '/'))) = names (String.ofList text) := by
  induction text with
  | nil => rfl
  | cons c text ih =>
      by_cases hslash : c = '/'
      · subst hslash
        have hpieces :
            pieces (String.ofList ('/' :: text)) = "" :: pieces (String.ofList text) := by
          simp [pieces, splitWhere]
        rw [List.dropWhile_cons_of_pos (by simp), ih, names, names, hpieces,
          List.filter_cons_of_neg (by decide)]
      · rw [List.dropWhile_cons_of_neg (by simpa using hslash)]

end Path

namespace Manifest

variable {module importPath rest tail cache dir : String} {manifest : Manifest}
  {requirement next : Requirement} {requirements : List Requirement} {best : Option Requirement}
  {locator : Locator}

/-! ## Lying in a module -/

/-- An import path is the path of a module or continues it after a slash. -/
def LiesIn (module importPath : String) : Prop :=
  importPath = module ∨ ∃ rest, importPath = module ++ "/" ++ rest

theorem relativeTo?_eq_some_iff :
    relativeTo? module importPath = some rest ↔
      importPath = module ∧ rest = "" ∨ importPath = module ++ "/" ++ rest := by
  constructor
  · exact relativeTo?_eq_some
  · rintro (⟨rfl, rfl⟩ | rfl)
    · have hexpect : expect? importPath.toList importPath.toList = some [] :=
        expect?_eq_some.mpr (List.append_nil _).symm
      rw [relativeTo?, hexpect]
    · have hexpect : expect? module.toList (module ++ "/" ++ rest).toList =
          some ('/' :: rest.toList) := expect?_eq_some.mpr (by simp)
      rw [relativeTo?, hexpect]
      simp

theorem belongsTo_iff : belongsTo module importPath = true ↔ LiesIn module importPath := by
  rw [belongsTo, Option.isSome_iff_exists]
  simp only [relativeTo?_eq_some_iff, exists_or, LiesIn]
  simp

/-! ## The longest path -/

/-- A requirement has the longest path of all whose module an import path lies in, and stands
behind the others with a path of this length. -/
def Provides (requirements : List Requirement) (importPath : String)
    (requirement : Requirement) : Prop :=
  ∃ before after, requirements = before ++ requirement :: after ∧
    LiesIn requirement.path importPath ∧
    (∀ other ∈ before, LiesIn other.path importPath →
      other.path.utf8ByteSize ≤ requirement.path.utf8ByteSize) ∧
    ∀ other ∈ after, LiesIn other.path importPath →
      other.path.utf8ByteSize < requirement.path.utf8ByteSize

theorem provides_cons_iff :
    Provides (next :: requirements) importPath requirement ↔
      (next = requirement ∧ LiesIn next.path importPath ∧
        ∀ other ∈ requirements, LiesIn other.path importPath →
          other.path.utf8ByteSize < requirement.path.utf8ByteSize) ∨
      (LiesIn next.path importPath →
        next.path.utf8ByteSize ≤ requirement.path.utf8ByteSize) ∧
        Provides requirements importPath requirement := by
  constructor
  · rintro ⟨before, after, heq, hin, hbefore, hafter⟩
    cases before with
    | nil =>
        obtain ⟨rfl, rfl⟩ := List.cons.inj heq
        exact .inl ⟨rfl, hin, hafter⟩
    | cons first before =>
        obtain ⟨rfl, rfl⟩ := List.cons.inj heq
        obtain ⟨hfirst, hbefore⟩ := List.forall_mem_cons.mp hbefore
        exact .inr ⟨hfirst, before, after, rfl, hin, hbefore, hafter⟩
  · rintro (⟨rfl, hin, hafter⟩ | ⟨hnext, before, after, rfl, hin, hbefore, hafter⟩)
    · exact ⟨[], requirements, rfl, hin, fun _ hmem => absurd hmem List.not_mem_nil, hafter⟩
    · exact ⟨next :: before, after, rfl, hin, List.forall_mem_cons.mpr ⟨hnext, hbefore⟩, hafter⟩

/-- The best known requirement stays only if no other one comes up to it. -/
theorem foldl_longer_eq_some_iff :
    (requirements.filter fun req => belongsTo req.path importPath).foldl longer best =
        some requirement ↔
      (best = some requirement ∧ ∀ other ∈ requirements, LiesIn other.path importPath →
        other.path.utf8ByteSize < requirement.path.utf8ByteSize) ∨
      (∀ known ∈ best, known.path.utf8ByteSize ≤ requirement.path.utf8ByteSize) ∧
        Provides requirements importPath requirement := by
  induction requirements generalizing best with
  | nil => simp [Provides]
  | cons next requirements ih =>
      rw [provides_cons_iff, List.forall_mem_cons]
      by_cases hin : LiesIn next.path importPath
      · have hbelongs := belongsTo_iff.mpr hin
        simp only [List.filter_cons, hbelongs, if_true, List.foldl_cons, ih, hin, forall_const,
          true_and]
        cases best with
        | none => grind [longer]
        | some known => grind [longer]
      · have hbelongs := Bool.eq_false_iff.mpr (mt belongsTo_iff.mp hin)
        simp [hbelongs, ih, hin]

theorem requirementFor?_eq_some_iff :
    manifest.requirementFor? importPath = some requirement ↔
      Provides manifest.requires importPath requirement := by
  rw [requirementFor?, foldl_longer_eq_some_iff]
  simp

theorem foldl_longer_eq_none_iff :
    requirements.foldl longer best = none ↔ best = none ∧ requirements = [] := by
  induction requirements generalizing best with
  | nil => simp
  | cons next requirements ih =>
      have hsome : longer best next ≠ none := by
        cases best with
        | none => exact Option.some_ne_none _
        | some known =>
            rw [longer]
            split <;> exact Option.some_ne_none _
      simp [ih, hsome]

theorem exists_requirementFor?_iff :
    (∃ requirement, manifest.requirementFor? importPath = some requirement) ↔
      ∃ requirement ∈ manifest.requires, LiesIn requirement.path importPath := by
  have hnone : manifest.requirementFor? importPath = none ↔
      ∀ requirement ∈ manifest.requires, ¬ LiesIn requirement.path importPath := by
    rw [requirementFor?, foldl_longer_eq_none_iff]
    simp [← belongsTo_iff]
  rw [← Option.isSome_iff_exists, Option.isSome_iff_ne_none, ne_eq, hnone]
  simp

/-! ## Cutting behind the module -/

theorem exists_tail_of_liesIn (hin : LiesIn module importPath) :
    ∃ tail, importPath = module ++ tail ∧ (tail = "" ∨ ∃ rest, tail = "/" ++ rest) := by
  rcases hin with rfl | ⟨rest, rfl⟩
  · exact ⟨"", by simp, .inl rfl⟩
  · exact ⟨"/" ++ rest, String.append_assoc, .inr ⟨rest, rfl⟩⟩

theorem liesIn_of_requirementFor?
    (hfor : manifest.requirementFor? importPath = some requirement) :
    LiesIn requirement.path importPath :=
  belongsTo_iff.mp (requirementFor?_some hfor).2

theorem afterModule_append (requirement : Requirement) (tail : String) :
    Locator.afterModule requirement (requirement.path ++ tail) =
      String.ofList (tail.toList.dropWhile (· == '/')) := by
  simp [Locator.afterModule]

theorem afterModule_slash (requirement : Requirement) (rest : String) :
    Locator.afterModule requirement (requirement.path ++ "/" ++ rest) =
      String.ofList (rest.toList.dropWhile (· == '/')) := by
  rw [String.append_assoc, afterModule_append]
  simp

theorem afterModule_self (requirement : Requirement) :
    Locator.afterModule requirement requirement.path = "" := by
  simp [Locator.afterModule]

/-- The import path can be cut behind as many bytes as the path of the module that provides it
has. -/
theorem slice?_of_requirementFor?
    (hfor : manifest.requirementFor? importPath = some requirement) :
    ∃ tail, slice? importPath requirement.path.utf8ByteSize importPath.utf8ByteSize = some tail ∧
      (tail = "" ∨ ∃ rest, tail = "/" ++ rest) ∧
      Locator.afterModule requirement importPath =
        String.ofList (tail.toList.dropWhile (· == '/')) := by
  obtain ⟨tail, rfl, htail⟩ := exists_tail_of_liesIn (liesIn_of_requirementFor? hfor)
  exact ⟨tail, slice?_back _ _, htail, afterModule_append requirement tail⟩

/-! ## The directory in the module cache -/

/-- The directory of a required module in the module cache. -/
def moduleDir (cache : String) (requirement : Requirement) : String :=
  Path.join cache (escapeModulePath requirement.path ++ "@" ++ requirement.version)

theorem moduleDir_ne_empty : moduleDir cache requirement ≠ "" := by
  unfold moduleDir Path.join
  split
  · simp
  · split <;> simp

theorem cachedPath?_eq (hmanifest : locator.manifest = some manifest)
    (hcache : locator.moduleCache = some cache)
    (hfor : manifest.requirementFor? importPath = some requirement) :
    locator.cachedPath? importPath =
      some (if Locator.afterModule requirement importPath = "" then moduleDir cache requirement
        else Path.join (moduleDir cache requirement)
          (Locator.afterModule requirement importPath)) := by
  simp [Locator.cachedPath?, hmanifest, hcache, hfor, moduleDir, Locator.cachedName]

/-- A package is looked for in the directory of its module, below the segments of its import path
behind the module. -/
theorem components_cachedPath? (hmanifest : locator.manifest = some manifest)
    (hcache : locator.moduleCache = some cache)
    (hfor : manifest.requirementFor? importPath = some requirement) :
    ∃ dir segments, locator.cachedPath? importPath = some dir ∧
      Path.pieces importPath = Path.pieces requirement.path ++ segments ∧
      Path.components dir =
        Path.components (segments.foldl Path.join (moduleDir cache requirement)) := by
  have hpath := cachedPath?_eq hmanifest hcache hfor
  rcases liesIn_of_requirementFor? hfor with rfl | ⟨rest, rfl⟩
  · rw [if_pos (afterModule_self requirement)] at hpath
    exact ⟨_, [], hpath, (List.append_nil _).symm, by rw [List.foldl_nil]⟩
  · refine ⟨_, Path.pieces rest, hpath, Path.pieces_append _ _, ?_⟩
    rw [Path.components_foldl_join moduleDir_ne_empty fun _ => Path.not_mem_of_mem_pieces]
    have hafter := afterModule_slash requirement rest
    have hnames : Path.names (Locator.afterModule requirement (requirement.path ++ "/" ++ rest)) =
        Path.names rest := by
      rw [hafter, Path.names_dropWhile, String.ofList_toList]
    have hrelative : Path.isAbsolute
        (Locator.afterModule requirement (requirement.path ++ "/" ++ rest)) = false := by
      rw [hafter, Path.isAbsolute, String.toList_ofList]
      have hhead := List.head?_dropWhile_not (· == '/') rest.toList
      cases hlist : (rest.toList.dropWhile (· == '/')).head? with
      | none => rfl
      | some c => simpa [hlist] using hhead
    split
    case isTrue hempty =>
      rw [hempty] at hnames
      rw [← Path.names, ← hnames]
      simp [Path.names, Path.pieces, splitWhere, Path.isFiller]
    case isFalse =>
      rw [Path.components_join_of_relative moduleDir_ne_empty hrelative, hnames, Path.names]

/-- Two slashes stand next to each other. -/
def RepeatsSlash (path : String) : Prop := ∃ front back, path = front ++ "//" ++ back

/-- Without repeated slashes, what follows the slash behind the module is joined to its directory
as it stands there. -/
theorem cachedPath?_of_not_repeatsSlash (hmanifest : locator.manifest = some manifest)
    (hcache : locator.moduleCache = some cache)
    (hfor : manifest.requirementFor? importPath = some requirement)
    (hplain : ¬ RepeatsSlash importPath) :
    ∃ rest, (importPath = requirement.path ∧ rest = "" ∨
        importPath = requirement.path ++ "/" ++ rest) ∧
      locator.cachedPath? importPath =
        some (if rest = "" then moduleDir cache requirement
          else Path.join (moduleDir cache requirement) rest) := by
  have hpath := cachedPath?_eq hmanifest hcache hfor
  rcases liesIn_of_requirementFor? hfor with rfl | ⟨rest, rfl⟩
  · rw [afterModule_self] at hpath
    exact ⟨"", .inl ⟨rfl, rfl⟩, hpath⟩
  · have hdrop : rest.toList.dropWhile (· == '/') = rest.toList := by
      cases hlist : rest.toList with
      | nil => rfl
      | cons c text =>
          refine List.dropWhile_cons_of_neg fun hslash => hplain ?_
          refine ⟨requirement.path, String.ofList text, String.toList_injective ?_⟩
          simp [hlist, beq_iff_eq.mp hslash]
    rw [afterModule_slash, hdrop, String.ofList_toList] at hpath
    exact ⟨rest, .inr rfl, hpath⟩

/-! ## Looking up an import path -/

/-- How an import path is looked up in a manifest, and in the module cache of a locator with this
manifest. -/
structure LooksUp (manifest : Manifest) (importPath : String) : Prop where
  /-- There is a requirement for the import path exactly if it lies in a required module. -/
  found : (∃ requirement, manifest.requirementFor? importPath = some requirement) ↔
    ∃ requirement ∈ manifest.requires, LiesIn requirement.path importPath
  /-- It is the last of those with the longest path. -/
  chosen : ∀ requirement, manifest.requirementFor? importPath = some requirement ↔
    Provides manifest.requires importPath requirement
  /-- Nothing is left of the path of the manifest's own module, and of a path that continues it
  what follows the slash. -/
  stripped : ∀ rest, manifest.strip? importPath = some rest ↔
    importPath = manifest.module ∧ rest = "" ∨ importPath = manifest.module ++ "/" ++ rest
  /-- The import path has a part behind the bytes of the required module's path. -/
  cut : ∀ requirement, manifest.requirementFor? importPath = some requirement →
    ∃ tail, slice? importPath requirement.path.utf8ByteSize importPath.utf8ByteSize = some tail ∧
      (tail = "" ∨ ∃ rest, tail = "/" ++ rest) ∧
      Locator.afterModule requirement importPath =
        String.ofList (tail.toList.dropWhile (· == '/'))
  /-- The directory in the module cache is reached from that of the module by the segments behind
  the module. -/
  directory : ∀ (locator : Locator) cache requirement, locator.manifest = some manifest →
    locator.moduleCache = some cache → manifest.requirementFor? importPath = some requirement →
    ∃ dir segments, locator.cachedPath? importPath = some dir ∧
      Path.pieces importPath = Path.pieces requirement.path ++ segments ∧
      Path.components dir =
        Path.components (segments.foldl Path.join (moduleDir cache requirement))
  /-- Without repeated slashes it is the text behind the module that is joined. -/
  joined : ∀ (locator : Locator) cache requirement, locator.manifest = some manifest →
    locator.moduleCache = some cache → manifest.requirementFor? importPath = some requirement →
    ¬ RepeatsSlash importPath →
    ∃ rest, (importPath = requirement.path ∧ rest = "" ∨
        importPath = requirement.path ++ "/" ++ rest) ∧
      locator.cachedPath? importPath =
        some (if rest = "" then moduleDir cache requirement
          else Path.join (moduleDir cache requirement) rest)

/-- Every import path is looked up by its segments, and the most specific module provides it. -/
theorem looksUp (manifest : Manifest) (importPath : String) : manifest.LooksUp importPath where
  found := exists_requirementFor?_iff
  chosen _ := requirementFor?_eq_some_iff
  stripped _ := relativeTo?_eq_some_iff
  cut _ hfor := slice?_of_requirementFor? hfor
  directory _ _ _ hmanifest hcache hfor := components_cachedPath? hmanifest hcache hfor
  joined _ _ _ hmanifest hcache hfor hplain :=
    cachedPath?_of_not_repeatsSlash hmanifest hcache hfor hplain

end Manifest

end GoAtlas
