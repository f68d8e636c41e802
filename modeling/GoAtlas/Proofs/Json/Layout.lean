import GoAtlas.Json.Read
import GoAtlas.Json.Write
import Mathlib.Data.List.Basic

/-!
# Layouts

A value is written on one line or over several.  The two texts differ in the blanks between
tokens only, so both are instances of one text with the blanks left open: `compactOnto_eq` and
`prettyOnto_eq` say so for the layouts `Layout.compact` and `Layout.pretty`.  What holds of the
text in any layout then holds of both.
-/

namespace GoAtlas.Json

/-! ## Measures of a value -/

mutual

/-- Whether there are no numbers in a value, and nothing without a value. -/
def isTextual : Json → Bool
  | .null => true
  | .bool _ => true
  | .str _ => true
  | .arr items => textualItems items
  | .obj entries => textualEntries entries
  | _ => false

def textualItems : List Json → Bool
  | [] => true
  | item :: rest => item.isTextual && textualItems rest

def textualEntries : List (String × Json) → Bool
  | [] => true
  | (_, value) :: rest => value.isTextual && textualEntries rest

end

mutual

/-- How deep arrays and objects are nested in a value. -/
def nesting : Json → Nat
  | .arr items => nestingItems items + 1
  | .obj entries => nestingEntries entries + 1
  | _ => 0

def nestingItems : List Json → Nat
  | [] => 0
  | item :: rest => max item.nesting (nestingItems rest)

def nestingEntries : List (String × Json) → Nat
  | [] => 0
  | (_, value) :: rest => max value.nesting (nestingEntries rest)

end

/-! ## Layouts -/

/-- The blanks of a text: those in front of what stands on a level, and those after a
colon. -/
structure Layout where
  gap : Nat → List Char
  colon : List Char
  gap_blank : ∀ level, ∀ c ∈ gap level, isSpace c = true
  colon_blank : ∀ c ∈ colon, isSpace c = true

namespace Layout

mutual

/-- The text of a value inside `level` arrays and objects, with the text `rest` after it. -/
def write (layout : Layout) (level : Nat) (rest : List Char) : Json → List Char
  | .null => "null".toList ++ rest
  | .bool true => "true".toList ++ rest
  | .bool false => "false".toList ++ rest
  | .int n => intChars n ++ rest
  | .decimal mantissa exponent => decimalChars mantissa exponent ++ rest
  | .str text => quote text ++ rest
  | .raw text => text.toList ++ rest
  | .arr [] => '[' :: ']' :: rest
  | .arr (item :: more) =>
      '[' :: (layout.gap (level + 1) ++
        layout.writeItems (level + 1) (layout.gap level ++ ']' :: rest) (item :: more))
  | .obj [] => '\x7b' :: '\x7d' :: rest
  | .obj (entry :: more) =>
      '\x7b' :: (layout.gap (level + 1) ++
        layout.writeEntries (level + 1) (layout.gap level ++ '\x7d' :: rest) (entry :: more))

/-- The texts of items with commas between them, without the blanks in front. -/
def writeItems (layout : Layout) (level : Nat) (rest : List Char) : List Json → List Char
  | [] => rest
  | [item] => layout.write level rest item
  | item :: next :: more =>
      layout.write level (',' :: (layout.gap level ++ layout.writeItems level rest (next :: more)))
        item

/-- The texts of entries with commas between them, without the blanks in front. -/
def writeEntries (layout : Layout) (level : Nat) (rest : List Char) :
    List (String × Json) → List Char
  | [] => rest
  | [(key, value)] => quote key ++ ':' :: (layout.colon ++ layout.write level rest value)
  | (key, value) :: next :: more =>
      quote key ++ ':' :: (layout.colon ++ layout.write level
        (',' :: (layout.gap level ++ layout.writeEntries level rest (next :: more))) value)

end

/-- Everything on one line. -/
def compact : Layout where
  gap := fun _ => []
  colon := []
  gap_blank := by simp
  colon_blank := by simp

/-- Each item on a line of its own. -/
def pretty : Layout where
  gap := newLine
  colon := [' ']
  gap_blank := by
    intro level c hc
    rcases List.mem_cons.mp hc with rfl | hc
    · rfl
    · rw [(List.mem_replicate.mp hc).2]
      rfl
  colon_blank := by simp [isSpace]

end Layout

mutual

theorem compactOnto_eq : ∀ (json : Json) (level : Nat) (rest : List Char),
    json.compactOnto rest = Layout.compact.write level rest json
  | .null, _, _ => rfl
  | .bool true, _, _ => rfl
  | .bool false, _, _ => rfl
  | .int _, _, _ => rfl
  | .decimal _ _, _, _ => rfl
  | .str _, _, _ => rfl
  | .raw _, _, _ => rfl
  | .arr [], _, _ => rfl
  | .arr (item :: more), level, rest =>
      congrArg ('[' :: ·) (compactItems_eq (item :: more) (level + 1) (']' :: rest))
  | .obj [], _, _ => rfl
  | .obj (entry :: more), level, rest =>
      congrArg ('\x7b' :: ·) (compactEntries_eq (entry :: more) (level + 1) ('\x7d' :: rest))

theorem compactItems_eq : ∀ (items : List Json) (level : Nat) (rest : List Char),
    compactItems rest items = Layout.compact.writeItems level rest items
  | [], _, _ => rfl
  | [item], level, rest => compactOnto_eq item level rest
  | item :: next :: more, level, rest => by
      have hmore := compactItems_eq (next :: more) level rest
      have hitem := compactOnto_eq item level (',' :: compactItems rest (next :: more))
      rw [compactItems, hitem, hmore]
      · rfl
      · simp

theorem compactEntries_eq : ∀ (entries : List (String × Json)) (level : Nat) (rest : List Char),
    compactEntries rest entries = Layout.compact.writeEntries level rest entries
  | [], _, _ => rfl
  | [(key, value)], level, rest => by
      have hvalue := compactOnto_eq value level rest
      rw [compactEntries, hvalue]
      rfl
  | (key, value) :: next :: more, level, rest => by
      have hmore := compactEntries_eq (next :: more) level rest
      have hvalue := compactOnto_eq value level (',' :: compactEntries rest (next :: more))
      rw [compactEntries, hvalue, hmore]
      · rfl
      · simp

end

mutual

theorem prettyOnto_eq : ∀ (json : Json) (level : Nat) (rest : List Char),
    json.prettyOnto level rest = Layout.pretty.write level rest json
  | .null, _, _ => rfl
  | .bool true, _, _ => rfl
  | .bool false, _, _ => rfl
  | .int _, _, _ => rfl
  | .decimal _ _, _, _ => rfl
  | .str _, _, _ => rfl
  | .raw _, _, _ => rfl
  | .arr [], _, _ => rfl
  | .arr (item :: more), level, _ =>
      congrArg ('[' :: ·) (prettyItems_eq (item :: more) (level + 1) _ (List.cons_ne_nil _ _))
  | .obj [], _, _ => rfl
  | .obj (entry :: more), level, _ =>
      congrArg ('\x7b' :: ·) (prettyEntries_eq (entry :: more) (level + 1) _ (List.cons_ne_nil _ _))

theorem prettyItems_eq : ∀ (items : List Json) (level : Nat) (rest : List Char), items ≠ [] →
    prettyItems level rest items = newLine level ++ Layout.pretty.writeItems level rest items
  | [], _, _, hne => absurd rfl hne
  | [item], level, rest, _ => congrArg (newLine level ++ ·) (prettyOnto_eq item level rest)
  | item :: next :: more, level, rest, _ => by
      have hmore := prettyItems_eq (next :: more) level rest (List.cons_ne_nil _ _)
      have hitem := prettyOnto_eq item level (',' :: prettyItems level rest (next :: more))
      rw [prettyItems, hitem, hmore]
      · rfl
      · simp

theorem prettyEntries_eq : ∀ (entries : List (String × Json)) (level : Nat) (rest : List Char),
    entries ≠ [] → prettyEntries level rest entries =
      newLine level ++ Layout.pretty.writeEntries level rest entries
  | [], _, _, hne => absurd rfl hne
  | [(key, value)], level, rest, _ => by
      have hvalue := prettyOnto_eq value level rest
      rw [prettyEntries, hvalue, List.append_assoc]
      rfl
  | (key, value) :: next :: more, level, rest, _ => by
      have hmore := prettyEntries_eq (next :: more) level rest (List.cons_ne_nil _ _)
      have hvalue := prettyOnto_eq value level (',' :: prettyEntries level rest (next :: more))
      rw [prettyEntries, hvalue, hmore, List.append_assoc]
      · rfl
      · simp

end

end GoAtlas.Json
