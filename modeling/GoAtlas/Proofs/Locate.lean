import GoAtlas.Locate
import GoAtlas.Proofs.Manifest

/-!
# Import paths are found again

A locator leads from an import path to a directory, and back from the files in a directory.
Each way in which a package is found (`Locator.Found`) says which import path the files there
have: the one that the package was looked for under, or, if it lies below the root of a module
under its full import path, that one as a part of the module (`Locator.fullName?_found`).

The way back only has the path of a file.  What makes it possible is that no root lies in another
one, so the components of the path tell which root it is below, and that the mark of a version and
the escapes of capitals do not occur in the import path itself.
-/

namespace GoAtlas.Locator

open GoAtlas.Path (pieces components IsPlain)

variable {locator : Locator} {tree : FileTree} {importPath dir name entry root other : String}
  {names : List String} {manifest : Manifest} {requirement : Requirement}

/-! ## Roots -/

/-- The roots that packages are kept below. -/
def roots (locator : Locator) : List String :=
  locator.systemRoot.toList ++ locator.moduleCache.toList ++ [locator.workspaceRoot]

/-- Whether no root is the same as another one or lies in it. -/
def IsApart (locator : Locator) : Prop :=
  locator.roots.Pairwise fun a b => Path.relativeTo? a b = none ∧ Path.relativeTo? b a = none

instance : Decidable locator.IsApart :=
  inferInstanceAs (Decidable (List.Pairwise _ _))

theorem relativeTo?_eq_none_iff :
    Path.relativeTo? root dir = none ↔ ¬ components root <+: components dir := by
  rw [Path.relativeTo?, Option.map_eq_none_iff, Option.eq_none_iff_forall_ne_some]
  constructor
  · rintro hnone ⟨rest, hrest⟩
    exact hnone rest (Path.componentsAfter?_eq_some.mpr hrest.symm)
  · rintro hprefix rest hrest
    exact hprefix ⟨rest, (Path.componentsAfter?_eq_some.mp hrest).symm⟩

/-- What lies below one of two roots that are apart does not lie below the other one. -/
theorem relativeTo?_eq_none (hother : Path.relativeTo? other root = none)
    (hroot : Path.relativeTo? root other = none)
    (hdir : components dir = components root ++ names) :
    Path.relativeTo? other dir = none := by
  rw [relativeTo?_eq_none_iff] at hother hroot ⊢
  intro hprefix
  rcases List.prefix_or_prefix_of_prefix hprefix (hdir ▸ List.prefix_append _ _) with h | h
  · exact hother h
  · exact hroot h

/-- What lies below a root does not lie below an optional other one that is apart from it. -/
theorem bind_relativeTo?_eq_none {other? : Option String}
    (hother : ∀ other, other? = some other →
      Path.relativeTo? other root = none ∧ Path.relativeTo? root other = none)
    (hdir : components dir = components root ++ names) :
    (other?.bind fun other => Path.relativeTo? other dir) = none := by
  rw [Option.bind_eq_none_iff]
  intro other hsome
  exact relativeTo?_eq_none (hother other hsome).1 (hother other hsome).2 hdir

theorem IsApart.cache_system (hapart : locator.IsApart) {system cache : String}
    (hsystem : locator.systemRoot = some system) (hcache : locator.moduleCache = some cache) :
    Path.relativeTo? system cache = none ∧ Path.relativeTo? cache system = none := by
  simp only [IsApart, roots, hsystem, hcache, Option.toList_some] at hapart
  exact (List.pairwise_cons.mp hapart).1 cache (by simp)

theorem IsApart.workspace_system (hapart : locator.IsApart) {system : String}
    (hsystem : locator.systemRoot = some system) :
    Path.relativeTo? system locator.workspaceRoot = none ∧
      Path.relativeTo? locator.workspaceRoot system = none := by
  simp only [IsApart, roots, hsystem, Option.toList_some] at hapart
  exact (List.pairwise_cons.mp hapart).1 locator.workspaceRoot (by simp)

theorem IsApart.workspace_cache (hapart : locator.IsApart) {cache : String}
    (hcache : locator.moduleCache = some cache) :
    Path.relativeTo? cache locator.workspaceRoot = none ∧
      Path.relativeTo? locator.workspaceRoot cache = none := by
  simp only [IsApart, roots, hcache, Option.toList_some, List.append_assoc] at hapart
  have hrest := (List.pairwise_append.mp hapart).2.1
  exact (List.pairwise_cons.mp hrest).1 locator.workspaceRoot (by simp)

/-! ## The way back, by roots -/

/-- The import path of a directory below the system root. -/
theorem nameOf?_system (hroot : locator.systemRoot = some root)
    (hdir : components dir = components root ++ names) (hnames : ∀ name ∈ names, Path.isName name)
    (hne : String.intercalate "/" names ≠ "") :
    locator.nameOf? dir = some (String.intercalate "/" names) := by
  have hbelow := Path.relativeTo?_of_components hdir hnames
  simp [nameOf?, hroot, hbelow, hne]

/-- The import path of a directory below the module cache. -/
theorem nameOf?_cache (hapart : locator.IsApart) (hroot : locator.moduleCache = some root)
    (hdir : components dir = components root ++ names) (hnames : ∀ name ∈ names, Path.isName name) :
    locator.nameOf? dir =
      some (unescapeModulePath (dropVersions (String.intercalate "/" names))) := by
  have hbelow := Path.relativeTo?_of_components hdir hnames
  have hsystem : (locator.systemRoot.bind fun root => Path.relativeTo? root dir) = none :=
    bind_relativeTo?_eq_none (fun _ hsystem => hapart.cache_system hsystem hroot) hdir
  simp [nameOf?, hsystem, hroot, hbelow]

/-- The import path of a directory below the root of the workspace. -/
theorem nameOf?_workspace (hapart : locator.IsApart)
    (hdir : components dir = components locator.workspaceRoot ++ names)
    (hnames : ∀ name ∈ names, Path.isName name) :
    locator.nameOf? dir = locator.nameInWorkspace? (String.intercalate "/" names) := by
  have hbelow := Path.relativeTo?_of_components hdir hnames
  have hsystem : (locator.systemRoot.bind fun root => Path.relativeTo? root dir) = none :=
    bind_relativeTo?_eq_none (fun _ => hapart.workspace_system) hdir
  have hcache : (locator.moduleCache.bind fun root => Path.relativeTo? root dir) = none :=
    bind_relativeTo?_eq_none (fun _ => hapart.workspace_cache) hdir
  simp [nameOf?, hsystem, hcache, hbelow]

/-- Whether a text is the name of a file. -/
def IsFileName (name : String) : Prop :=
  '/' ∉ name.toList ∧ Path.isFiller name = false ∧ name ≠ ".."

instance : Decidable (IsFileName name) := inferInstanceAs (Decidable (_ ∧ _))

/-- Files have the import path of the directory they are in. -/
theorem fullName?_join (hentry : IsFileName entry)
    (hfile : tree.isDirectory (Path.join dir entry) = false) :
    locator.fullName? tree (Path.join dir entry) = locator.nameOf? dir := by
  obtain ⟨parent, hparent, hcomponents⟩ := Path.parent?_join dir hentry.2.1 hentry.1
  simp [fullName?, hfile, hparent, nameOf?, Path.relativeTo?, hcomponents]

/-! ## Versions -/

section Versions

variable {c : Char} {front back version rest : List Char}

/-- The characters of a path without the versions of modules. -/
def versionless (text : List Char) : List Char :=
  ['/'].intercalate ((splitWhere (· == '/') text).map fun segment => segment.takeWhile (· != '@'))

theorem dropVersions_eq (path : String) :
    dropVersions path = String.ofList (versionless path.toList) := rfl

theorem versionless_slash (front back : List Char) :
    versionless (front ++ '/' :: back) = versionless front ++ '/' :: versionless back := by
  rw [versionless, splitWhere_append (by simp), List.map_append,
    intercalate_append (by simp [splitWhere_ne_nil]) (by simp [splitWhere_ne_nil])]
  rfl

theorem versionless_cons (hslash : c ≠ '/') (hmark : c ≠ '@') (text : List Char) :
    versionless (c :: text) = c :: versionless text := by
  obtain ⟨piece, parts, htext, hcons⟩ := splitWhere_cons_of_not (p := (· == '/'))
    (beq_eq_false_iff_ne.mpr hslash) text
  have hpiece : (c :: piece).takeWhile (· != '@') = c :: piece.takeWhile (· != '@') := by
    simp [hmark]
  rw [versionless, versionless, htext, hcons, List.map_cons, List.map_cons, hpiece]
  cases parts with
  | nil => simp
  | cons second parts => simp [List.intercalate_cons_cons]

/-- What holds no mark of a version stays. -/
theorem versionless_append (hmark : '@' ∉ front) (back : List Char) :
    versionless (front ++ back) = front ++ versionless back := by
  induction front with
  | nil => rfl
  | cons c front ih =>
      simp only [List.mem_cons, not_or] at hmark
      by_cases hslash : c = '/'
      · subst hslash
        have hnil : versionless [] = [] := rfl
        have hsplit := versionless_slash [] (front ++ back)
        rw [List.nil_append, hnil, List.nil_append, ih hmark.2] at hsplit
        exact hsplit
      · rw [List.cons_append, versionless_cons hslash (Ne.symm hmark.1), ih hmark.2]
        rfl

/-- A version goes as far as the next slash. -/
theorem versionless_version (hversion : '/' ∉ version) : versionless ('@' :: version) = [] := by
  have hsplit : splitWhere (· == '/') ('@' :: version) = ['@' :: version] :=
    splitWhere_of_forall_not fun c hc => beq_eq_false_iff_ne.mpr fun heq => by
      subst heq
      rcases List.mem_cons.mp hc with heq | hc
      · exact absurd heq (by decide)
      · exact hversion hc
  simp [versionless, hsplit]

/-- A module path with its version, and possibly a path inside the module, without the version. -/
theorem versionless_cached (hfront : '@' ∉ front) (hversion : '/' ∉ version)
    (hrest : rest = [] ∨ ∃ inner, rest = '/' :: inner) (hmark : '@' ∉ rest) :
    versionless (front ++ '@' :: version ++ rest) = front ++ rest := by
  rw [List.append_assoc, versionless_append hfront]
  rcases hrest with rfl | ⟨inner, rfl⟩
  · rw [List.append_nil, versionless_version hversion]
  · have hinner : '@' ∉ inner := fun hmem => hmark (List.mem_cons_of_mem _ hmem)
    have hkept := versionless_append hinner []
    have hnil : versionless [] = [] := rfl
    rw [List.append_nil, hnil, List.append_nil] at hkept
    rw [versionless_slash, versionless_version hversion, hkept]
    rfl

end Versions

/-! ## Import paths -/

/-- An import path that leads from the roots to a directory and back: its segments are names
without the marks that the module cache uses, and neither it nor what is left of it in
the module of the workspace starts like a vendored path. -/
structure IsOrdinary (locator : Locator) (importPath : String) : Prop where
  plain : IsPlain importPath
  marks : ∀ c ∈ importPath.toList, c ≠ '@' ∧ c ≠ '!'
  notVendored : Path.after? "vendor/" importPath = none
  restNotVendored : ∀ manifest ∈ locator.manifest, ∀ rest ∈ manifest.strip? importPath,
    Path.after? "vendor/" rest = none
  versions : ∀ manifest ∈ locator.manifest, ∀ requirement ∈ manifest.requires,
    '/' ∉ requirement.version.toList

theorem isPlain_append {front back : String} :
    IsPlain (front ++ "/" ++ back) ↔ IsPlain front ∧ IsPlain back := by
  simp only [IsPlain, Path.pieces_append, List.mem_append]
  exact ⟨fun h => ⟨fun piece hpiece => h piece (.inl hpiece), fun piece hpiece =>
    h piece (.inr hpiece)⟩, fun h piece hpiece => hpiece.elim (h.1 piece) (h.2 piece)⟩

theorem IsPlain.ne_empty (hplain : IsPlain importPath) : importPath ≠ "" := by
  rintro rfl
  exact absurd (hplain "" (by decide)).1 (by decide)

/-- The text of a path below a root is put together from its pieces again. -/
theorem nameInWorkspace?_of_not (hvendored : Path.after? "vendor/" name = none) :
    locator.nameInWorkspace? name =
      match locator.manifest with
      | some manifest =>
          some (if name.isEmpty then manifest.module else manifest.module ++ "/" ++ name)
      | none => if name.isEmpty then none else some name := by
  have hexpect : expect? "vendor/".toList name.toList = none := by
    simpa [Path.after?] using hvendored
  cases hmanifest : locator.manifest <;> simp only [nameInWorkspace?, hexpect, hmanifest]

theorem nameOf?_system_join (hordinary : locator.IsOrdinary importPath)
    (hroot : locator.systemRoot = some root) :
    locator.nameOf? (Path.join root importPath) = some importPath := by
  have hdir := Path.components_join root hordinary.plain
  rw [nameOf?_system hroot hdir hordinary.plain.isName] <;> rw [Path.intercalate_pieces]
  exact IsPlain.ne_empty hordinary.plain

theorem nameOf?_vendorPath (hapart : locator.IsApart) (hordinary : locator.IsOrdinary importPath) :
    locator.nameOf? (locator.vendorPath importPath) = some importPath := by
  have hvendor : IsPlain "vendor" := by decide
  have hboth : IsPlain ("vendor" ++ "/" ++ importPath) :=
    isPlain_append.mpr ⟨hvendor, hordinary.plain⟩
  have hdir : components (locator.vendorPath importPath) =
      components locator.workspaceRoot ++ pieces ("vendor" ++ "/" ++ importPath) := by
    rw [vendorPath, Path.components_join _ hordinary.plain, Path.components_join _ hvendor,
      Path.pieces_append, List.append_assoc]
  rw [nameOf?_workspace hapart hdir hboth.isName, Path.intercalate_pieces, nameInWorkspace?]
  have hexpect : expect? "vendor/".toList ("vendor" ++ "/" ++ importPath).toList =
      some importPath.toList := by
    rw [expect?_eq_some]
    simp
  rw [hexpect]
  simp

theorem nameOf?_plainPath (hapart : locator.IsApart) (hordinary : locator.IsOrdinary importPath) :
    locator.nameOf? (locator.plainPath importPath) =
      match locator.manifest with
      | some manifest => some (manifest.module ++ "/" ++ importPath)
      | none => some importPath := by
  have hdir := Path.components_join locator.workspaceRoot hordinary.plain
  have hempty := IsPlain.ne_empty hordinary.plain
  rw [plainPath, nameOf?_workspace hapart hdir hordinary.plain.isName, Path.intercalate_pieces,
    nameInWorkspace?_of_not hordinary.notVendored]
  cases locator.manifest <;> simp [hempty]

theorem nameOf?_ownPath (hapart : locator.IsApart) (hordinary : locator.IsOrdinary importPath)
    (hown : locator.ownPath? importPath = some dir) : locator.nameOf? dir = some importPath := by
  obtain ⟨rest, hrest, rfl⟩ := Option.map_eq_some_iff.mp hown
  obtain ⟨manifest, hmanifest, hstrip⟩ := Option.bind_eq_some_iff.mp hrest
  rcases Manifest.relativeTo?_eq_some hstrip with ⟨hmodule, rfl⟩ | hmodule
  · have hdir : components (Path.join locator.workspaceRoot "") =
        components locator.workspaceRoot ++ [] := by
      rw [Path.components_join_empty, List.append_nil]
    rw [nameOf?_workspace hapart hdir (by simp), nameInWorkspace?_of_not (by decide), hmanifest]
    simp [hmodule]
  · have hplain : IsPlain manifest.module ∧ IsPlain rest :=
      isPlain_append.mp (hmodule ▸ hordinary.plain)
    have hdir := Path.components_join locator.workspaceRoot hplain.2
    rw [nameOf?_workspace hapart hdir hplain.2.isName, Path.intercalate_pieces,
      nameInWorkspace?_of_not (hordinary.restNotVendored manifest hmanifest rest hstrip), hmanifest]
    simp [IsPlain.ne_empty hplain.2, hmodule]

/-! ## The module cache -/

theorem toList_cachedName (requirement : Requirement) :
    (cachedName requirement).toList =
      escapeChars requirement.path.toList ++ '@' :: requirement.version.toList := by
  simp [cachedName, escapeModulePath]

/-- A module path with its version leads through directories that have names. -/
theorem isPlain_cachedName (hplain : IsPlain requirement.path)
    (hmark : '!' ∉ requirement.path.toList) (hversion : '/' ∉ requirement.version.toList) :
    IsPlain (cachedName requirement) := by
  have hfree : ∀ c ∈ '@' :: requirement.version.toList, (c == '/') = false := by
    rintro c hc
    rw [beq_eq_false_iff_ne]
    rintro rfl
    rcases List.mem_cons.mp hc with heq | hc
    · exact absurd heq (by decide)
    · exact hversion hc
  obtain ⟨before, last, hescaped, hname⟩ :=
    splitWhere_append_of_forall_not (escapeChars requirement.path.toList) hfree
  intro piece hpiece
  obtain ⟨text, htext, rfl⟩ := List.mem_map.mp hpiece
  rw [toList_cachedName, hname, List.mem_append, List.mem_singleton] at htext
  -- No piece is one of the three texts that are no names.
  suffices hne : ∀ dots ∈ ["", ".", ".."], text ≠ dots.toList by
    have hnames : ∀ dots ∈ ["", ".", ".."], String.ofList text ≠ dots := fun dots hdots heq =>
      hne dots hdots (by rw [← heq, String.toList_ofList])
    simpa [Path.isFiller, and_assoc] using hnames
  rintro dots hdots rfl
  rcases htext with hmem | hlast
  · -- An escaped name would be read back as one of these texts.
    have hmem : dots.toList ∈ splitWhere (· == '/') (escapeChars requirement.path.toList) := by
      rw [hescaped]
      exact List.mem_append_left _ hmem
    rw [splitWhere_escapeChars, List.mem_map] at hmem
    obtain ⟨segment, hsegment, heq⟩ := hmem
    have hback := unescapeChars_escapeChars
      (fun hc => hmark (mem_of_mem_splitWhere hsegment hc)) []
    have hnil : unescapeChars [] = [] := rfl
    rw [heq, hnil, List.append_nil, List.append_nil] at hback
    have hname := hplain _ (List.mem_map_of_mem hsegment)
    simp only [List.mem_cons, List.not_mem_nil, or_false] at hdots
    rw [← hback] at hname
    rcases hdots with rfl | rfl | rfl <;> exact absurd hname (by decide)
  · have hat : '@' ∈ dots.toList := by simp [hlast]
    simp only [List.mem_cons, List.not_mem_nil, or_false] at hdots
    rcases hdots with rfl | rfl | rfl <;> exact absurd hat (by decide)

/-- What follows the path of a module in an import path. -/
theorem afterModule_eq (hordinary : locator.IsOrdinary importPath)
    (hbelongs : Manifest.belongsTo requirement.path importPath = true) :
    afterModule requirement importPath = "" ∧ importPath = requirement.path ∨
      importPath = requirement.path ++ "/" ++ afterModule requirement importPath ∧
        IsPlain (afterModule requirement importPath) := by
  obtain ⟨rest, hrest⟩ := Option.isSome_iff_exists.mp hbelongs
  rcases Manifest.relativeTo?_eq_some hrest with ⟨hpath, -⟩ | hpath
  · exact .inl ⟨by simp [afterModule, hpath], hpath⟩
  · have hplain := (isPlain_append.mp (hpath ▸ hordinary.plain)).2
    have hslash : rest.toList.dropWhile (· == '/') = rest.toList := by
      have hrelative := hplain.isAbsolute
      unfold Path.isAbsolute at hrelative
      cases hlist : rest.toList with
      | nil => rfl
      | cons c text =>
          have hc : (c == '/') = false := by simpa [hlist] using hrelative
          simp [hc]
    have hafter : afterModule requirement importPath = rest := by
      rw [afterModule, hpath]
      simp [hslash]
    rw [hafter]
    exact .inr ⟨hpath, hplain⟩

/-- A path in the module cache is read back as an import path. -/
theorem unescape_dropVersions {path : String} {version : List Char} (module rest : List Char)
    (hpath : path.toList = escapeChars module ++ '@' :: version ++ rest)
    (himport : importPath.toList = module ++ rest)
    (hmarks : ∀ c ∈ importPath.toList, c ≠ '@' ∧ c ≠ '!') (hversion : '/' ∉ version)
    (hrest : rest = [] ∨ ∃ inner, rest = '/' :: inner) :
    unescapeModulePath (dropVersions path) = importPath := by
  rw [himport] at hmarks
  have hmodule : '@' ∉ module ∧ '!' ∉ module :=
    ⟨fun hc => (hmarks _ (List.mem_append_left _ hc)).1 rfl,
      fun hc => (hmarks _ (List.mem_append_left _ hc)).2 rfl⟩
  have hinner : '@' ∉ rest ∧ '!' ∉ rest :=
    ⟨fun hc => (hmarks _ (List.mem_append_right _ hc)).1 rfl,
      fun hc => (hmarks _ (List.mem_append_right _ hc)).2 rfl⟩
  have hdrop : (dropVersions path).toList = escapeChars module ++ rest := by
    rw [dropVersions_eq, hpath, String.toList_ofList,
      versionless_cached (not_mem_escapeChars hmodule.1) hversion hrest hinner.1]
  apply String.toList_injective
  rw [unescapeModulePath, hdrop, String.toList_ofList, unescapeChars_escapeChars hmodule.2,
    unescapeChars_of_not_mem hinner.2, himport]

theorem nameOf?_cachedPath (hapart : locator.IsApart) (hordinary : locator.IsOrdinary importPath)
    (hcached : locator.cachedPath? importPath = some dir) :
    locator.nameOf? dir = some importPath := by
  unfold cachedPath? at hcached
  split at hcached
  case h_2 => cases hcached
  case h_1 cache manifest hcache hmanifest =>
    obtain ⟨requirement, hrequirement, rfl⟩ := Option.map_eq_some_iff.mp hcached
    obtain ⟨hmem, hbelongs⟩ := Manifest.requirementFor?_some hrequirement
    have hversion := hordinary.versions manifest hmanifest requirement hmem
    have hname : requirement.path.toList ⊆ importPath.toList → IsPlain requirement.path →
        IsPlain (cachedName requirement) := fun hsubset hplain =>
      isPlain_cachedName hplain (fun hc => (hordinary.marks _ (hsubset hc)).2 rfl) hversion
    rcases afterModule_eq hordinary hbelongs with ⟨hafter, rfl⟩ | ⟨hpath, hafter⟩
    · have hplain := hname (fun _ hc => hc) hordinary.plain
      have hdir := Path.components_join cache hplain
      rw [if_pos (by simp [hafter]), nameOf?_cache hapart hcache hdir hplain.isName,
        Path.intercalate_pieces, unescape_dropVersions requirement.path.toList []
          (by simp [toList_cachedName]) (by simp) hordinary.marks hversion (.inl rfl)]
    · generalize afterModule requirement importPath = rest at hpath hafter
      have hsegments := isPlain_append.mp (hpath ▸ hordinary.plain)
      have hplain := hname (by simp [hpath]) hsegments.1
      have hboth := isPlain_append.mpr ⟨hplain, hafter⟩
      have hdir : components (Path.join (Path.join cache (cachedName requirement)) rest) =
          components cache ++ pieces (cachedName requirement ++ "/" ++ rest) := by
        rw [Path.components_join _ hafter, Path.components_join _ hplain, Path.pieces_append,
          List.append_assoc]
      rw [if_neg (by simpa using IsPlain.ne_empty hafter), nameOf?_cache hapart hcache hdir
        hboth.isName, Path.intercalate_pieces, unescape_dropVersions
          requirement.path.toList ('/' :: rest.toList) (by simp [toList_cachedName])
          (by simp [hpath]) hordinary.marks hversion (.inr ⟨_, rfl⟩)]

/-! ## Back again -/

/-- The ways in which a package is found in a directory, each with the import path that the files
there have. -/
inductive Found (locator : Locator) (tree : FileTree) (importPath : String) :
    (dir name : String) → Prop
  | system {dir : String} (hfound : locator.system? tree importPath = some dir) :
      Found locator tree importPath dir importPath
  /-- In the workspace's own module. -/
  | own {dir : String} (hfound : locator.workspace? tree importPath = some dir)
      (hdir : locator.ownPath? importPath = some dir) : Found locator tree importPath dir importPath
  /-- Among the vendored packages. -/
  | vendored (hfound : locator.workspace? tree importPath = some (locator.vendorPath importPath)) :
      Found locator tree importPath (locator.vendorPath importPath) importPath
  /-- Below the root under the full import path, in a workspace without a manifest. -/
  | plain (hfound : locator.workspace? tree importPath = some (locator.plainPath importPath))
      (hmanifest : locator.manifest = none) :
      Found locator tree importPath (locator.plainPath importPath) importPath
  /-- Below the root of a module under the full import path. -/
  | plainInModule {manifest : Manifest}
      (hfound : locator.workspace? tree importPath = some (locator.plainPath importPath))
      (hmanifest : locator.manifest = some manifest) :
      Found locator tree importPath (locator.plainPath importPath)
        (manifest.module ++ "/" ++ importPath)
  /-- In the module cache. -/
  | cached {dir : String} (hfound : locator.workspace? tree importPath = some dir)
      (hdir : locator.cachedPath? importPath = some dir) :
      Found locator tree importPath dir importPath

/-- Whatever the locator finds is found in one of these ways. -/
theorem exists_found (hfound : locator.workspace? tree importPath = some dir ∨
      locator.system? tree importPath = some dir) :
    ∃ name, locator.Found tree importPath dir name := by
  rcases hfound with hfound | hfound
  · have hmem := List.mem_of_find?_eq_some hfound
    simp only [candidates, List.mem_append, Option.mem_toList, List.mem_cons, List.not_mem_nil,
      or_false] at hmem
    rcases hmem with (hown | rfl | rfl) | hcached
    · exact ⟨_, .own hfound hown⟩
    · exact ⟨_, .vendored hfound⟩
    · cases hmanifest : locator.manifest with
      | none => exact ⟨_, .plain hfound hmanifest⟩
      | some manifest => exact ⟨_, .plainInModule hfound hmanifest⟩
    · exact ⟨_, .cached hfound hcached⟩
  · exact ⟨_, .system hfound⟩

/-- The files in a directory have the import path that belongs to the way in which the directory
has been found. -/
theorem nameOf?_found (hapart : locator.IsApart) (hordinary : locator.IsOrdinary importPath)
    (hfound : locator.Found tree importPath dir name) : locator.nameOf? dir = some name := by
  cases hfound with
  | system hfound =>
      obtain ⟨root, hroot, hdir⟩ := Option.bind_eq_some_iff.mp hfound
      simp only [Option.ite_none_right_eq_some, Option.some.injEq] at hdir
      rw [← hdir.2, nameOf?_system_join hordinary hroot]
  | own hfound hown => exact nameOf?_ownPath hapart hordinary hown
  | vendored hfound => exact nameOf?_vendorPath hapart hordinary
  | plain hfound hmanifest => rw [nameOf?_plainPath hapart hordinary, hmanifest]
  | plainInModule hfound hmanifest => rw [nameOf?_plainPath hapart hordinary, hmanifest]
  | cached hfound hcached => exact nameOf?_cachedPath hapart hordinary hcached

/-- An import path leads to a directory in one of the ways of `Found`, and every file there leads
back to the import path, or to that path as a part of the workspace's module when the directory
lies below the root of a module under its full import path. -/
theorem fullName?_found (hapart : locator.IsApart) (hordinary : locator.IsOrdinary importPath) :
    (∀ dir, locator.workspace? tree importPath = some dir ∨
        locator.system? tree importPath = some dir →
      ∃ name, locator.Found tree importPath dir name) ∧
    ∀ dir name entry, locator.Found tree importPath dir name → IsFileName entry →
      tree.isDirectory (Path.join dir entry) = false →
        locator.fullName? tree (Path.join dir entry) = some name :=
  ⟨fun _ => exists_found, fun _ _ _ hfound hentry hfile => by
    rw [fullName?_join hentry hfile, nameOf?_found hapart hordinary hfound]⟩

/-- A workspace whose module requires another one, with a capital in its path. -/
def requiringLocator : Locator where
  workspaceRoot := "/a"
  manifest := some {
    module := "example.com/a"
    requires := [{ path := "x.org/T", version := "v1", indirect := false }] }
  moduleCache := some "/c"

/-- The module cache with a package of the required module. -/
def cachingTree : FileTree :=
  (FileTree.writeDeep {} "/c/x.org/!t@v1/in/tz.go"
    "package in\n").1

/-- The package is found in the module cache, and its file leads back to it. -/
theorem fullName?_found_cached :
    requiringLocator.workspace? cachingTree "x.org/T/in" =
        some "/c/x.org/!t@v1/in" ∧
      cachingTree.isFile "/c/x.org/!t@v1/in/tz.go" = true ∧
      requiringLocator.fullName? cachingTree
          "/c/x.org/!t@v1/in/tz.go" =
        some "x.org/T/in" := by
  have hapart : requiringLocator.IsApart := by decide +kernel
  have hordinary : requiringLocator.IsOrdinary "x.org/T/in" := by
    refine ⟨by decide +kernel, by simp, by decide +kernel, ?_, ?_⟩
    · rintro _ ⟨⟩ rest hrest
      have hnone : Manifest.relativeTo? "example.com/a" "x.org/T/in" =
          none := by decide +kernel
      rw [Option.mem_def, Manifest.strip?, hnone] at hrest
      cases hrest
    · rintro _ ⟨⟩
      decide +kernel
  have hfound : requiringLocator.workspace? cachingTree "x.org/T/in" =
      some "/c/x.org/!t@v1/in" := by decide +kernel
  have hcached : requiringLocator.cachedPath? "x.org/T/in" =
      some "/c/x.org/!t@v1/in" := by decide +kernel
  have hback := (fullName?_found hapart hordinary).2 _ _ "tz.go"
    (Found.cached hfound hcached) (by decide +kernel) (by decide +kernel)
  exact ⟨hfound, by decide +kernel, hback⟩

end GoAtlas.Locator
