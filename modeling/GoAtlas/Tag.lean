import GoAtlas.Literal
import GoAtlas.Table
import GoAtlas.Text.Blank

/-!
# Field tags

A struct field may carry a tag, a quoted literal whose text is a sequence of
pairs `key:"value"`.  `pairs` cuts the text into pairs and stops at the first
place where none can be read.  `Tags.ofPairs` then unquotes each value: what
denotes a text is split at commas and recorded under its key, and what does not
is listed as malformed, so one bad value costs no other.
-/

namespace GoAtlas

/-- A pair of a tag: a key and the quoted literal that follows its colon. -/
structure TagPair where
  key : String
  /-- The literal with its quotes. -/
  quoted : String
deriving DecidableEq, Repr

/-- A pair whose quoted literal cannot be read. -/
structure MalformedTag where
  key : String
  /-- The literal with its quotes. -/
  raw : String
  /-- Why it cannot be read. -/
  reason : Fault
deriving DecidableEq, Repr

/-- What the tag of a field says. -/
structure Tags where
  /-- The values under each key, in order of appearance. -/
  values : Table (List String) := Table.empty
  /-- The pairs that were dropped, in order of appearance. -/
  malformed : List MalformedTag := []
deriving DecidableEq, Repr

namespace Tags

/-! ## Cutting a tag into pairs -/

/-- The characters of a key: above the space, and neither colon, double quote
nor delete. -/
def isKeyChar (c : Char) : Bool :=
  ' ' < c && c != ':' && c != '"' && c != '\x7f'

/-- Reads the rest of a quoted value after its opening quote: what stands up to
and including the next quote that no backslash precedes, and what follows. -/
def takeQuoted : List Char → Option (List Char × List Char)
  | [] => none
  | '"' :: rest => some (['"'], rest)
  | '\\' :: c :: rest => (takeQuoted rest).map fun (body, after) => ('\\' :: c :: body, after)
  | c :: rest => (takeQuoted rest).map fun (body, after) => (c :: body, after)

/-- The pair at the start of a text, after any spaces, and the text after it. -/
def takePair (text : List Char) : Option (TagPair × List Char) :=
  let text := text.dropWhile (· == ' ')
  let key := text.takeWhile isKeyChar
  if key.isEmpty then none
  else
    match text.dropWhile isKeyChar with
    | ':' :: '"' :: rest =>
        (takeQuoted rest).map fun (body, after) =>
          (⟨String.ofList key, String.ofList ('"' :: body)⟩, after)
    | _ => none

theorem takeQuoted_length {text body after : List Char}
    (h : takeQuoted text = some (body, after)) : after.length < text.length := by
  fun_induction takeQuoted text generalizing body after with
  | case1 => simp at h
  | case2 =>
      simp only [Option.some.injEq, Prod.mk.injEq] at h
      simp [h.2]
  | case3 c rest ih =>
      obtain ⟨⟨body', after'⟩, htake, heq⟩ := Option.map_eq_some_iff.1 h
      simp only [Prod.mk.injEq] at heq
      have := ih htake
      simp only [List.length_cons, ← heq.2]
      omega
  | case4 c rest _ _ ih =>
      obtain ⟨⟨body', after'⟩, htake, heq⟩ := Option.map_eq_some_iff.1 h
      simp only [Prod.mk.injEq] at heq
      have := ih htake
      simp only [List.length_cons, ← heq.2]
      omega

/-- A pair takes characters from the text. -/
theorem takePair_length {text after : List Char} {pair : TagPair}
    (h : takePair text = some (pair, after)) : after.length < text.length := by
  unfold takePair at h
  simp only at h
  split at h
  · simp at h
  · split at h
    · rename_i rest hdrop
      obtain ⟨⟨body, after'⟩, htake, heq⟩ := Option.map_eq_some_iff.1 h
      simp only [Prod.mk.injEq] at heq
      have hlt := takeQuoted_length htake
      have hle := length_dropWhile_le isKeyChar (text.dropWhile (· == ' '))
      have hle' := length_dropWhile_le (· == ' ') text
      rw [hdrop] at hle
      simp only [List.length_cons] at hle
      rw [← heq.2]
      omega
    · simp at h

/-- The pairs of a tag text, up to the first place where none starts. -/
def pairs (text : List Char) : List TagPair :=
  match _h : takePair text with
  | none => []
  | some (pair, rest) => pair :: pairs rest
termination_by text.length
decreasing_by exact takePair_length _h

/-! ## What the pairs say -/

/-- The comma-separated pieces of a value, without the spaces around them. -/
def pieces (value : String) : List String :=
  (splitWhere (· == ',') value.toList).map fun piece =>
    String.ofList (trimWhile (· == ' ') piece)

/-- Records one pair. -/
def add (tags : Tags) (pair : TagPair) : Tags :=
  match Literal.unquote pair.quoted with
  | .ok value =>
      let known := (tags.values.get? pair.key).getD []
      { tags with values := tags.values.insert pair.key (known ++ pieces value) }
  | .error reason =>
      { tags with malformed := tags.malformed ++ [⟨pair.key, pair.quoted, reason⟩] }

/-- What a sequence of pairs says. -/
def ofPairs (pairs : List TagPair) : Tags :=
  pairs.foldl add {}

/-- Reads a tag, given as the literal that stands in the source. -/
def read (literal : String) : Except Fault Tags :=
  match Literal.unquote literal with
  | .error fault => .error fault
  | .ok text => .ok (ofPairs (pairs text.toList))

end Tags

end GoAtlas
