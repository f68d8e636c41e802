import GoAtlas.Proofs.Files.Writing

/-!
# What writing leaves alone

Two trees are compared by their regular files: by the text that each absolute path has in the
one and in the other (`textAt?`).  Creating directories changes no file, because a directory is
only put where nothing stands.  Writing a file changes the one place that its path leads to
afterwards; a write that fails may have created directories, but no file.
-/

namespace GoAtlas.FileTree

variable {tree made after written : FileTree} {place pieces : List String} {path key text : String}
  {node : FileNode} {path? : Option String}

/-- The text of the regular file under an absolute path. -/
def textAt? (tree : FileTree) (key : String) : Option String :=
  match tree.nodes.get? key with
  | some (.file text) => some text
  | _ => none

/-- A path leads to the absolute path `key`. -/
def LeadsTo (tree : FileTree) (path key : String) : Prop :=
  ∃ place, tree.place? path = some place ∧ Path.ofNames place = key

/-- No regular file has been created, removed or changed. -/
def SameFiles (tree after : FileTree) : Prop :=
  ∀ key, after.textAt? key = tree.textAt? key

/-- No regular file has been created, removed or changed, except for the one that `path?` leads
to. -/
def SameFilesBut (tree : FileTree) (path? : Option String) (after : FileTree) : Prop :=
  ∀ key, (∀ path ∈ path?, ¬ after.LeadsTo path key) → after.textAt? key = tree.textAt? key

theorem SameFiles.refl (tree : FileTree) : tree.SameFiles tree := fun _ => rfl

theorem SameFiles.trans (hfirst : tree.SameFiles made) (hsecond : made.SameFiles after) :
    tree.SameFiles after :=
  fun key => (hsecond key).trans (hfirst key)

theorem SameFiles.but (hsame : tree.SameFiles after) (path? : Option String) :
    tree.SameFilesBut path? after :=
  fun key _ => hsame key

theorem SameFiles.trans_but (hfirst : tree.SameFiles made)
    (hsecond : made.SameFilesBut path? after) : tree.SameFilesBut path? after :=
  fun key hkey => (hsecond key hkey).trans (hfirst key)

/-! ## Putting a node -/

theorem textAt?_put_other (hkey : key ≠ Path.ofNames place) :
    (tree.put place node).textAt? key = tree.textAt? key := by
  simp [textAt?, put, hkey]

/-- A directory takes the place of no file. -/
theorem sameFiles_put_directory (hfree : tree.node? place = none) :
    tree.SameFiles (tree.put place .directory) := by
  intro key
  by_cases hkey : key = Path.ofNames place
  · have hnone : tree.nodes.get? (Path.ofNames place) = none := by
      unfold node? at hfree
      split at hfree
      · cases hfree
      · exact hfree
    simp [textAt?, put, hkey, hnone]
  · exact textAt?_put_other hkey

/-! ## Creating directories -/

theorem sameFiles_createAlong (tree : FileTree) (place pieces : List String) :
    tree.SameFiles (tree.createAlong place pieces).1 := by
  -- The tree grows on the way, so the induction is over any tree.
  induction pieces generalizing tree place with
  | nil => exact .refl tree
  | cons piece rest ih =>
      unfold createAlong
      split
      · exact ih tree place
      · split
        · exact ih tree place.dropLast
        · split
          case h_1 => exact ih tree (place ++ [piece])
          case h_2 => exact .refl tree
          case h_3 hfree => exact (sameFiles_put_directory hfree).trans (ih _ _)

theorem sameFiles_createDirectories (tree : FileTree) (path : String) :
    tree.SameFiles (tree.createDirectories path).1 :=
  sameFiles_createAlong tree _ _

/-! ## Writing files -/

/-- Writing a file changes only the file that its path leads to. -/
theorem sameFilesBut_write? (hwrite : tree.write? path text = some written) :
    tree.SameFilesBut (some path) written := by
  intro key hkey
  obtain ⟨place, -, hput, hleads, -⟩ := place?_write? hwrite
  have hother : key ≠ Path.ofNames place := fun heq => hkey path rfl ⟨place, hleads, heq.symm⟩
  rw [hput, textAt?_put_other hother]

/-- The directories above a file are created without changing a file. -/
theorem writeDeep_eq (tree : FileTree) (path text : String) :
    ∃ made : FileTree × Bool, tree.SameFiles made.1 ∧
      tree.writeDeep path text =
        if made.2 then
          match made.1.write? path text with
          | some written => (written, true)
          | none => (made.1, false)
        else made := by
  unfold writeDeep
  cases Path.parent? path with
  | none => exact ⟨(tree, true), .refl tree, rfl⟩
  | some dir => exact ⟨tree.createDirectories dir, sameFiles_createDirectories tree dir, rfl⟩

theorem sameFilesBut_writeDeep (hwrite : tree.writeDeep path text = (written, true)) :
    tree.SameFilesBut (some path) written := by
  obtain ⟨made, hsame, hdeep⟩ := writeDeep_eq tree path text
  exact hsame.trans_but (sameFilesBut_write? (write?_of_made (hdeep.symm.trans hwrite)))

/-- Where the file cannot be written, no other has been. -/
theorem sameFiles_writeDeep (hfailed : tree.writeDeep path text = (written, false)) :
    tree.SameFiles written := by
  obtain ⟨⟨made, done⟩, hsame, hdeep⟩ := writeDeep_eq tree path text
  rw [hdeep] at hfailed
  cases done with
  | false =>
      cases hfailed
      exact hsame
  | true =>
      cases hwrite : made.write? path text with
      | some other => simp [hwrite] at hfailed
      | none =>
          obtain rfl : made = written := by simpa [hwrite] using hfailed
          exact hsame

end GoAtlas.FileTree
