import GoAtlas.Files.Path
import GoAtlas.Proofs.Text.Splitting

/-!
# Components of paths that are put together

A path is cut at its slashes, and putting pieces together with slashes is the inverse of that
(`pieces_intercalate`, `intercalate_pieces`).  So a path that is joined to a directory follows the
components of the directory by its own pieces (`components_join`), the path without its last
component has the components of the directory it was joined to (`parent?_join`), and the path
from a directory to a place below it is found again (`relativeTo?_of_components`).
-/

namespace GoAtlas

namespace Path

variable {path dir front back name root : String} {parts names rest : List String}

/-! ## Pieces -/

theorem pieces_ne_nil (path : String) : pieces path ≠ [] := by
  simp [pieces, splitWhere_ne_nil]

theorem pieces_append (front back : String) :
    pieces (front ++ "/" ++ back) = pieces front ++ pieces back := by
  have hslash : ('/' == '/') = true := rfl
  have hsplit := splitWhere_append (p := (· == '/')) hslash front.toList back.toList
  simp [pieces, hsplit]

theorem not_mem_of_mem_pieces (hname : name ∈ pieces path) : '/' ∉ name.toList := by
  obtain ⟨piece, hpiece, rfl⟩ := List.mem_map.mp hname
  intro hslash
  rw [String.toList_ofList] at hslash
  simpa using not_of_mem_splitWhere hpiece '/' hslash

theorem pieces_of_not_mem (hname : '/' ∉ name.toList) : pieces name = [name] := by
  have hfree : ∀ c ∈ name.toList, (c == '/') = false := fun c hc =>
    beq_eq_false_iff_ne.mpr fun heq => hname (heq ▸ hc)
  have hsplit := splitWhere_of_forall_not hfree
  simp [pieces, hsplit]

theorem intercalate_pieces (path : String) : String.intercalate "/" (pieces path) = path := by
  apply String.toList_injective
  have hsplit := intercalate_splitWhere '/' path.toList
  have hpieces : (pieces path).map String.toList = splitWhere (· == '/') path.toList := by
    simp [pieces, Function.comp_def]
  rw [String.toList_intercalate, hpieces]
  exact hsplit

theorem pieces_intercalate (hne : parts ≠ []) (hfree : ∀ part ∈ parts, '/' ∉ part.toList) :
    pieces (String.intercalate "/" parts) = parts := by
  have hsplit : splitWhere (· == '/') (['/'].intercalate (parts.map String.toList)) =
      parts.map String.toList := splitWhere_intercalate (by simpa using hne) (by simpa using hfree)
  have htext : (String.intercalate "/" parts).toList =
      ['/'].intercalate (parts.map String.toList) := String.toList_intercalate
  simp [pieces, htext, hsplit, Function.comp_def]

/-- Only an absolute path and the empty path start with an empty piece. -/
theorem head?_pieces : (pieces path).head? = some "" ↔ isAbsolute path = true ∨ path = "" := by
  rw [← String.toList_eq_nil_iff]
  unfold pieces isAbsolute
  cases path.toList with
  | nil => simp [splitWhere]
  | cons c text =>
      by_cases hc : c = '/'
      · simp [splitWhere, hc]
      · obtain ⟨piece, parts, -, hcons⟩ :=
          splitWhere_cons_of_not (p := (· == '/')) (beq_eq_false_iff_ne.mpr hc) text
        simp [hcons, hc]

theorem isAbsolute_eq_false (hhead : (pieces path).head? ≠ some "") : isAbsolute path = false := by
  rw [Bool.eq_false_iff]
  exact fun habsolute => hhead (head?_pieces.mpr (.inl habsolute))

/-- Whether every piece of a path is the name of a file or directory. -/
def IsPlain (path : String) : Prop :=
  ∀ piece ∈ pieces path, isFiller piece = false ∧ piece ≠ ".."

instance : Decidable (IsPlain path) :=
  inferInstanceAs (Decidable (∀ piece ∈ pieces path, isFiller piece = false ∧ piece ≠ ".."))

theorem IsPlain.isAbsolute (hplain : IsPlain path) : Path.isAbsolute path = false :=
  isAbsolute_eq_false fun hhead =>
    absurd (hplain "" (List.mem_of_mem_head? hhead)).1 (by decide)

theorem IsPlain.filter_pieces (hplain : IsPlain path) :
    (pieces path).filter (fun piece => !isFiller piece) = pieces path := by
  rw [List.filter_eq_self]
  intro piece hpiece
  simp [(hplain piece hpiece).1]

theorem IsPlain.isName (hplain : IsPlain path) : ∀ piece ∈ pieces path, isName piece = true := by
  intro piece hpiece
  obtain ⟨hfiller, hup⟩ := hplain piece hpiece
  have hslash : piece ≠ "/" := by
    rintro rfl
    exact not_mem_of_mem_pieces hpiece (by decide)
  simp only [isFiller, Bool.or_eq_false_iff, beq_eq_false_iff_ne] at hfiller
  simp [Path.isName, hslash, hfiller.2, hup]

/-! ## Joined paths -/

/-- The pieces of a joined path: in front there are those of the directory, up to an empty one
at the end, which a slash makes. -/
theorem pieces_join (dir : String) (hrelative : isAbsolute path = false) :
    ∃ front, pieces (join dir path) = front ++ pieces path ∧
      (dir = "" ∧ front = [] ∨
        dir ≠ "" ∧ front ≠ [] ∧ front.head? = (pieces dir).head? ∧
          front.filter (fun piece => !isFiller piece) =
            (pieces dir).filter fun piece => !isFiller piece) := by
  by_cases hdir : dir = ""
  · exact ⟨[], by simp [join, hdir], .inl ⟨hdir, rfl⟩⟩
  have hempty : dir.isEmpty = false := by simpa using hdir
  by_cases hends : endsInSlash dir = true
  · -- The slash at the end of the directory takes the place of the one that is missing.
    obtain ⟨shorter, hshorter⟩ : ∃ shorter, dir = shorter ++ "/" := by
      obtain ⟨front, hfront⟩ := List.getLast?_eq_some_iff.mp (beq_iff_eq.mp hends)
      exact ⟨String.ofList front, String.toList_injective (by simp [hfront])⟩
    have hpieces : pieces dir = pieces shorter ++ [""] := by
      have happend := pieces_append shorter ""
      rw [String.append_empty] at happend
      rw [hshorter, happend]
      rfl
    refine ⟨pieces shorter, ?_, .inr ⟨hdir, pieces_ne_nil _, ?_, ?_⟩⟩
    · simp only [join, hrelative, hempty, hends, Bool.or_self, Bool.false_eq_true, if_false,
        if_true]
      rw [hshorter, pieces_append]
    · rw [hpieces, head?_append (pieces_ne_nil _)]
    · simp [hpieces, isFiller]
  · refine ⟨pieces dir, ?_, .inr ⟨hdir, pieces_ne_nil _, rfl, rfl⟩⟩
    simp only [join, hrelative, hempty, hends, Bool.or_self, Bool.false_eq_true, if_false]
    exact pieces_append dir path

theorem isAbsolute_join (hdir : dir ≠ "") (hrelative : isAbsolute path = false) :
    isAbsolute (join dir path) = isAbsolute dir := by
  have hempty : dir.isEmpty = false := by simpa using hdir
  have hhead : ∀ text : List Char, (dir.toList ++ text).head? = dir.toList.head? := fun text =>
    head?_append (by simpa using hdir)
  simp only [join, hrelative, hempty, Bool.or_self, Bool.false_eq_true, if_false]
  split <;> simp [isAbsolute, hhead]

theorem components_eq (path : String) :
    components path =
      (if isAbsolute path then ["/"] else if (pieces path).head? = some "." then ["."] else []) ++
        (pieces path).filter fun piece => !isFiller piece := by
  unfold components
  split
  · rfl
  · by_cases hdot : (pieces path).head? = some "." <;> simp [hdot]

/-- The components of a path that is joined to a directory. -/
theorem components_join (dir : String) (hplain : IsPlain path) :
    components (join dir path) = components dir ++ pieces path := by
  have hrelative := hplain.isAbsolute
  obtain ⟨front, hpieces, ⟨rfl, rfl⟩ | ⟨hdir, hne, hhead, hfilter⟩⟩ :=
    pieces_join dir hrelative
  · have hjoin : join "" path = path := by simp [join]
    have hdot : (pieces path).head? ≠ some "." := fun hhead =>
      absurd (hplain "." (List.mem_of_mem_head? hhead)).1 (by decide)
    have hnone : components "" = [] := by decide
    rw [hjoin, hnone, components_eq, hrelative, hplain.filter_pieces]
    simp [hdot]
  · rw [components_eq, isAbsolute_join hdir hrelative, hpieces, head?_append hne, hhead,
      List.filter_append, hfilter, hplain.filter_pieces, ← List.append_assoc, ← components_eq]

/-- A path stays the same place when nothing is joined to it. -/
theorem components_join_empty (dir : String) : components (join dir "") = components dir := by
  have hrelative : isAbsolute "" = false := rfl
  obtain ⟨front, hpieces, ⟨rfl, rfl⟩ | ⟨hdir, hne, hhead, hfilter⟩⟩ :=
    pieces_join dir hrelative
  · rfl
  · have hempty : (pieces "").filter (fun piece => !isFiller piece) = [] := rfl
    rw [components_eq, isAbsolute_join hdir hrelative, hpieces, head?_append hne, hhead,
      List.filter_append, hfilter, hempty, List.append_nil, ← components_eq]

/-! ## The path without its last component -/

theorem trimFillers_concat (hfiller : isFiller name = false) (parts : List String) :
    trimFillers (parts ++ [name]) = parts ++ [name] := by
  simp [trimFillers, hfiller]

theorem filter_trimFillers (parts : List String) :
    (trimFillers parts).filter (fun piece => !isFiller piece) =
      parts.filter fun piece => !isFiller piece := by
  have hdrop : ∀ names : List String,
      (names.dropWhile isFiller).filter (fun piece => !isFiller piece) =
        names.filter fun piece => !isFiller piece := by
    intro names
    induction names with
    | nil => rfl
    | cons name names ih => cases hname : isFiller name <;> simp [hname, ih]
  rw [trimFillers, List.filter_reverse, hdrop, List.filter_reverse, List.reverse_reverse]

/-- The components of an absolute path that is put together from pieces. -/
theorem components_absolute (hfree : ∀ part ∈ parts, '/' ∉ part.toList) :
    components ("/" ++ String.intercalate "/" parts) =
      "/" :: parts.filter fun piece => !isFiller piece := by
  have hpieces : (pieces ("/" ++ String.intercalate "/" parts)).filter
      (fun piece => !isFiller piece) = parts.filter fun piece => !isFiller piece := by
    have happend := pieces_append "" (String.intercalate "/" parts)
    rw [String.empty_append] at happend
    rw [happend, List.filter_append]
    cases parts with
    | nil => rfl
    | cons first parts =>
        rw [pieces_intercalate (by simp) hfree]
        rfl
  have habsolute : isAbsolute ("/" ++ String.intercalate "/" parts) = true := by simp [isAbsolute]
  rw [components_eq, habsolute, hpieces]
  rfl

/-- The components of a relative path that is put together from pieces. -/
theorem components_relative {first : String} (hfirst : first ≠ "")
    (hfree : ∀ part ∈ first :: parts, '/' ∉ part.toList) :
    components (String.intercalate "/" (first :: parts)) =
      (if first = "." then ["."] else []) ++
        (first :: parts).filter fun piece => !isFiller piece := by
  have hpieces := pieces_intercalate (by simp) hfree
  have hrelative : isAbsolute (String.intercalate "/" (first :: parts)) = false :=
    isAbsolute_eq_false (by simpa [hpieces] using hfirst)
  rw [components_eq, hrelative, hpieces]
  simp

theorem mem_of_mem_trimFillers (hname : name ∈ trimFillers parts) : name ∈ parts :=
  List.mem_reverse.mp ((List.dropWhile_sublist isFiller).subset (List.mem_reverse.mp hname))

/-- What is left of a path when the name at its end is taken off. -/
theorem parent?_of_pieces {first : String} {body : List String} (hfiller : isFiller name = false)
    (hpieces : pieces path = first :: (body ++ [name])) :
    parent? path = some (if isAbsolute path then
      "/" ++ String.intercalate "/" (trimFillers body)
      else String.intercalate "/" (first :: trimFillers body)) := by
  rw [parent?, hpieces]
  simp only [trimFillers_concat hfiller]
  cases body with
  | nil => cases isAbsolute path <;> rfl
  | cons second body =>
      simp only [List.cons_append]
      rw [← List.cons_append, List.dropLast_concat]
      cases isAbsolute path <;> rfl

/-- The path without a name that was joined to a directory is the directory again, as far as
components go. -/
theorem parent?_join (dir : String) (hfiller : isFiller name = false) (hslash : '/' ∉ name.toList) :
    ∃ parent, parent? (join dir name) = some parent ∧ components parent = components dir := by
  have hname := pieces_of_not_mem hslash
  have hempty : name ≠ "" := by
    rintro rfl
    exact absurd hfiller (by decide)
  have hrelative : isAbsolute name = false := isAbsolute_eq_false (by simpa [hname] using hempty)
  obtain ⟨front, hpieces, ⟨rfl, rfl⟩ | ⟨hdir, hne, hhead, hfilter⟩⟩ :=
    pieces_join dir hrelative
  · refine ⟨"", ?_, rfl⟩
    rw [hname, List.nil_append] at hpieces
    simp [parent?, hpieces, trimFillers, hempty]
  · obtain ⟨first, body, rfl⟩ := List.exists_cons_of_ne_nil hne
    rw [hname, List.cons_append] at hpieces
    have hfree : ∀ part ∈ first :: trimFillers body, '/' ∉ part.toList := by
      intro part hpart
      have hpiece : part ∈ pieces (join dir name) → '/' ∉ part.toList := not_mem_of_mem_pieces
      refine hpiece ?_
      rw [hpieces]
      rcases List.mem_cons.mp hpart with rfl | hpart
      · exact List.mem_cons_self ..
      · exact List.mem_cons_of_mem _ (List.mem_append_left _ (mem_of_mem_trimFillers hpart))
    have hparent := parent?_of_pieces hfiller hpieces
    rw [isAbsolute_join hdir hrelative] at hparent
    refine ⟨_, hparent, ?_⟩
    rw [List.head?_cons] at hhead
    cases habsolute : isAbsolute dir with
    | true =>
        obtain rfl : first = "" :=
          Option.some.inj (hhead.trans (head?_pieces.mpr (.inl habsolute)))
        rw [if_pos rfl,
          components_absolute fun part hpart => hfree part (List.mem_cons_of_mem _ hpart),
          components_eq dir, habsolute, ← hfilter, filter_trimFillers]
        rfl
    | false =>
        have hfirst : first ≠ "" := by
          rintro rfl
          rcases head?_pieces.mp hhead.symm with habsolute' | hempty
          · rw [habsolute] at habsolute'
            cases habsolute'
          · exact hdir hempty
        rw [if_neg Bool.false_ne_true, components_relative hfirst hfree, components_eq dir,
          habsolute, ← hhead, ← hfilter, List.filter_cons, List.filter_cons, filter_trimFillers]
        simp

/-! ## Below a directory -/

theorem componentsAfter?_eq_some {start : List String} :
    componentsAfter? start names = some rest ↔ names = start ++ rest := by
  induction start generalizing names with
  | nil => simp [componentsAfter?]
  | cons first start ih =>
      cases names with
      | nil => simp [componentsAfter?]
      | cons name names =>
          by_cases heq : first = name
          · simp [componentsAfter?, heq, ih]
          · simp [componentsAfter?, heq, Ne.symm heq]

/-- A place whose components follow those of a directory is reached from there by them. -/
theorem relativeTo?_of_components (hpath : components path = components root ++ names)
    (hnames : ∀ name ∈ names, isName name = true) :
    relativeTo? root path = some (String.intercalate "/" names) := by
  rw [relativeTo?, componentsAfter?_eq_some.mpr hpath, Option.map_some,
    List.filter_eq_self.mpr hnames]

end Path

end GoAtlas
