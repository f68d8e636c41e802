/-!
# Blank characters, lines and words

Manifests and settings are read line by line and word by word.  A character is
*blank* when it has the Unicode property `White_Space`; the property holds for
25 characters, listed below as ranges.

All functions here work on `List Char`, so that they can be reasoned about by
induction on the text.
-/

namespace GoAtlas

/-- The characters with the Unicode property `White_Space`. -/
def isBlank (c : Char) : Bool :=
  let n := c.toNat
  (0x09 ≤ n && n ≤ 0x0D) || n == 0x20 || n == 0x85 || n == 0xA0 || n == 0x1680 ||
    (0x2000 ≤ n && n ≤ 0x200A) || n == 0x2028 || n == 0x2029 || n == 0x202F ||
    n == 0x205F || n == 0x3000

/-! ## Cutting characters off the ends of a text -/

/-- `text` without the characters satisfying `p` at its end. -/
def trimEndWhile (p : Char → Bool) (text : List Char) : List Char :=
  (text.reverse.dropWhile p).reverse

/-- `text` without the characters satisfying `p` at both ends. -/
def trimWhile (p : Char → Bool) (text : List Char) : List Char :=
  trimEndWhile p (text.dropWhile p)

/-- `text` without the blanks at both ends. -/
def trimBlanks (text : List Char) : List Char :=
  trimWhile isBlank text

/-! ## Splitting a text -/

/-- The pieces of `text` between the characters satisfying `p`.  There is one
piece more than there are such characters, so an empty text has one empty
piece. -/
def splitWhere (p : Char → Bool) : List Char → List (List Char)
  | [] => [[]]
  | c :: rest =>
      if p c then [] :: splitWhere p rest
      else
        match splitWhere p rest with
        | [] => [[c]]
        | piece :: pieces => (c :: piece) :: pieces

/-- The maximal runs of characters that are not blank. -/
def words (text : List Char) : List (List Char) :=
  (splitWhere isBlank text).filter fun word => !word.isEmpty

/-- A line without the carriage return that belongs to its line break. -/
def dropCarriageReturn (line : List Char) : List Char :=
  match line.getLast? with
  | some '\r' => line.dropLast
  | _ => line

/-- The lines of a text.  A line ends at a line feed, with or without a
carriage return before it; what follows the last line feed is a line only if
it is not empty. -/
def lines (text : List Char) : List (List Char) :=
  let pieces := splitWhere (· == '\n') text
  let closed := pieces.dropLast.map dropCarriageReturn
  match pieces.getLast? with
  | none | some [] => closed
  | some last => closed ++ [last]

/-- `text` cut at the first occurrence of the two characters `a` and `b` next
to each other: what stands before them and what follows, if they occur. -/
def cutAtPair (a b : Char) : List Char → Option (List Char × List Char)
  | [] => none
  | [_] => none
  | c :: d :: rest =>
      if c = a ∧ d = b then some ([], rest)
      else (cutAtPair a b (d :: rest)).map fun (before, after) => (c :: before, after)

/-! ## Every character is accounted for -/

theorem length_dropWhile_le (p : Char → Bool) (text : List Char) :
    (text.dropWhile p).length ≤ text.length :=
  (List.dropWhile_suffix p).length_le

theorem splitWhere_ne_nil (p : Char → Bool) (text : List Char) : splitWhere p text ≠ [] := by
  cases text with
  | nil => simp [splitWhere]
  | cons c rest =>
      unfold splitWhere
      split
      · simp
      · split <;> simp

theorem cutAtPair_eq_some {a b : Char} {text before after : List Char}
    (h : cutAtPair a b text = some (before, after)) : text = before ++ a :: b :: after := by
  fun_induction cutAtPair a b text generalizing before after with
  | case1 => simp at h
  | case2 => simp at h
  | case3 c d rest hcd =>
      simp only [Option.some.injEq, Prod.mk.injEq] at h
      obtain ⟨rfl, rfl⟩ := h
      simp [hcd.1, hcd.2]
  | case4 c d rest hcd ih =>
      obtain ⟨⟨before', after'⟩, hcut, heq⟩ := Option.map_eq_some_iff.1 h
      simp only [Prod.mk.injEq] at heq
      obtain ⟨rfl, rfl⟩ := heq
      simp [ih hcut]

end GoAtlas
