import GoAtlas.Files.Tree

/-!
# Written files are read back

A file is written at a place that holds no directory.  Everything that leads to the place is a
directory, so nothing that a path goes through is touched, and the same path leads to the
new file (`read?_write?`).
-/

namespace GoAtlas.FileTree

variable {tree written : FileTree} {place other dir start : List String} {pieces rest : List String}
  {piece name path text : String} {node : FileNode}

/-! ## Putting a node -/

@[simp] theorem put_current : (tree.put place node).current = tree.current := rfl

theorem node?_put_self (hplace : place ≠ []) : (tree.put place node).node? place = some node := by
  simp [node?, put, hplace]

/-- Directories stay when a node is put where there is none. -/
theorem node?_put_directory (hplace : tree.node? place ≠ some .directory)
    (hother : tree.node? other = some .directory) :
    (tree.put place node).node? other = some .directory := by
  have hne : place ≠ [] := by
    rintro rfl
    exact hplace rfl
  by_cases hroot : other = []
  · simp [node?, hroot]
  · simp only [node?, List.isEmpty_iff, hroot, hne, if_false] at hplace hother ⊢
    rw [put, Table.get?_insert, if_neg, hother]
    intro hkey
    exact hplace (hkey ▸ hother)

/-! ## Following paths -/

/-- Where one piece of a path leads from a directory. -/
def next (place : List String) (piece : String) : List String :=
  if Path.isFiller piece then place
  else if piece = ".." then place.dropLast
  else place ++ [piece]

theorem follow?_cons_eq_some_iff : tree.follow? start (piece :: rest) = some dir ↔
    tree.node? start = some .directory ∧ tree.follow? (next start piece) rest = some dir := by
  rw [follow?, Option.ite_none_right_eq_some, next]
  split
  case isTrue => rfl
  case isFalse => split <;> rfl

/-- A path to a directory leads there as before. -/
theorem follow?_put (hplace : tree.node? place ≠ some .directory)
    (hdir : tree.node? dir = some .directory) (hfollow : tree.follow? start pieces = some dir) :
    (tree.put place node).follow? start pieces = some dir := by
  induction pieces generalizing start with
  | nil =>
      simp only [follow?, Option.ite_none_right_eq_some, Option.some.injEq] at hfollow ⊢
      obtain ⟨-, rfl⟩ := hfollow
      exact ⟨by rw [node?_put_directory hplace hdir]; rfl, rfl⟩
  | cons piece rest ih =>
      rw [follow?_cons_eq_some_iff] at hfollow ⊢
      exact ⟨node?_put_directory hplace hfollow.1, ih hfollow.2⟩

/-- One more name leads from a directory to what stands there. -/
theorem follow?_concat (hfollow : tree.follow? start pieces = some dir)
    (hdir : tree.node? dir = some .directory) (hfiller : Path.isFiller name = false)
    (hup : name ≠ "..") (hsome : (tree.node? (dir ++ [name])).isSome = true) :
    tree.follow? start (pieces ++ [name]) = some (dir ++ [name]) := by
  induction pieces generalizing start with
  | nil =>
      simp only [follow?, Option.ite_none_right_eq_some, Option.some.injEq] at hfollow
      obtain ⟨-, rfl⟩ := hfollow
      simp [follow?, hdir, hfiller, hup, hsome]
  | cons piece rest ih =>
      rw [follow?_cons_eq_some_iff] at hfollow
      rw [List.cons_append, follow?_cons_eq_some_iff]
      exact ⟨hfollow.1, ih hfollow.2⟩

/-! ## Writing -/

/-- What is known of the place of a file. -/
theorem filePlace?_some (hplace : tree.filePlace? path = some place) :
    ∃ front dir name, Path.pieces path = front ++ [name] ∧ place = dir ++ [name] ∧
      Path.isFiller name = false ∧ name ≠ ".." ∧
      tree.follow? (tree.start path) front = some dir ∧ tree.node? dir = some .directory ∧
      tree.node? (dir ++ [name]) ≠ some .directory := by
  unfold filePlace? at hplace
  split at hplace
  case h_1 => cases hplace
  case h_2 name hlast =>
    simp only [Option.ite_none_left_eq_some, Bool.or_eq_true, beq_iff_eq, not_or] at hplace
    obtain ⟨⟨hfiller, hup⟩, hplace⟩ := hplace
    split at hplace
    case h_1 => cases hplace
    case h_2 dir hfollow =>
      simp only [Option.ite_none_right_eq_some, Option.some.injEq] at hplace
      obtain ⟨⟨hdir, hfree⟩, rfl⟩ := hplace
      have hpieces : Path.pieces path = (Path.pieces path).dropLast ++ [name] := by
        obtain ⟨front, hfront⟩ := List.getLast?_eq_some_iff.mp hlast
        simp [hfront]
      exact ⟨_, dir, name, hpieces, rfl, by simpa using hfiller, hup, hfollow, hdir, hfree⟩

/-- A path leads to the file that has been written under it. -/
theorem place?_write? (hwrite : tree.write? path text = some written) :
    ∃ place, tree.filePlace? path = some place ∧ written = tree.put place (.file text) ∧
      written.place? path = some place ∧ written.node? place = some (.file text) := by
  obtain ⟨place, hplace, rfl⟩ := Option.map_eq_some_iff.mp hwrite
  obtain ⟨front, dir, name, hpieces, rfl, hfiller, hup, hfollow, hdir, hfree⟩ :=
    filePlace?_some hplace
  have hfile : (tree.put (dir ++ [name]) (.file text)).node? (dir ++ [name]) =
      some (.file text) := node?_put_self (by simp)
  have hempty : ¬ path.isEmpty = true := by
    intro hpath
    have hnone : Path.pieces path = [] ++ [""] := by
      rw [String.isEmpty_iff.mp hpath]
      rfl
    have hname : name = "" := by
      have := List.append_inj_right' (hpieces.symm.trans hnone) rfl
      simpa using this
    simp [hname, Path.isFiller] at hfiller
  have hleads := follow?_concat (follow?_put hfree hdir hfollow)
    (node?_put_directory hfree hdir) hfiller hup (by rw [hfile]; rfl)
  rw [← hpieces] at hleads
  have hstart : (tree.put (dir ++ [name]) (.file text)).start path = tree.start path := rfl
  exact ⟨dir ++ [name], hplace, rfl, by simp [place?, hempty, hstart, hleads], hfile⟩

/-- A file that has been written is read back under its path. -/
theorem read?_write? (hwrite : tree.write? path text = some written) :
    written.read? path = some text := by
  obtain ⟨place, -, -, hleads, hfile⟩ := place?_write? hwrite
  simp [read?, find?, hleads, hfile]

/-- Once the directories are there, the file has been written. -/
theorem write?_of_made {made : FileTree × Bool}
    (hwrite : (if made.2 then
      match made.1.write? path text with
      | some tree => (tree, true)
      | none => (made.1, false)
      else made) = (written, true)) :
    made.1.write? path text = some written := by
  obtain ⟨tree, done⟩ := made
  cases done with
  | false => cases hwrite
  | true =>
      cases hcase : tree.write? path text with
      | none => simp [hcase] at hwrite
      | some other => simpa [hcase] using hwrite

/-- A file that has been written, with the directories above it, is read back under its
path. -/
theorem read?_writeDeep (hwrite : tree.writeDeep path text = (written, true)) :
    written.read? path = some text :=
  read?_write? (write?_of_made hwrite)

theorem exists?_of_read? (hread : tree.read? path = some text) : tree.exists? path = true := by
  unfold read? at hread
  split at hread
  case h_1 hfind => simp [exists?, hfind]
  case h_2 => cases hread

end GoAtlas.FileTree
