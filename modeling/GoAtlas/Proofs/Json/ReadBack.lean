import GoAtlas.Proofs.Json.Layout
import Mathlib.Tactic.SplitIfs

/-!
# What is written can be read back

A value without numbers is read back from its text in any layout (`readValue_write`), so from
its compact and its pretty text (`scan?_compact`, `scan?_pretty`).  The reader gives up on
arrays and objects that are nested too deep, so the nesting of the value has to be within its
limit.  The nesting of a value that has been read always is (`nesting_le_of_scan?`).
-/

namespace GoAtlas.Json

variable {c : Char} {blanks text rest : List Char} {depth levels count : Nat}

/-! ## Blanks -/

theorem skipSpace_append (hblanks : ∀ c ∈ blanks, isSpace c = true) :
    skipSpace (blanks ++ text) = skipSpace text :=
  List.dropWhile_append_of_pos hblanks

theorem skipSpace_cons (hc : isSpace c = false) : skipSpace (c :: text) = c :: text := by
  simp [skipSpace, hc]

theorem skipSpace_append_cons (hblanks : ∀ c ∈ blanks, isSpace c = true)
    (hc : isSpace c = false) : skipSpace (blanks ++ c :: text) = c :: text := by
  rw [skipSpace_append hblanks, skipSpace_cons hc]

theorem readValue_append (hblanks : ∀ c ∈ blanks, isSpace c = true) :
    readValue depth levels (blanks ++ text) = readValue depth levels text := by
  cases depth with
  | zero => rfl
  | succ depth => simp only [readValue, skipSpace_append hblanks]

/-! ## Strings -/

theorem hex4?_hexDigit : ∀ n < 0x20,
    hex4? '0' '0' (hexDigit (n / 16)) (hexDigit (n % 16)) = some n := by
  decide

theorem readStringBody_control (text : List Char) (hcontrol : c.toNat < 0x20) :
    readStringBody none ('\\' :: 'u' :: '0' :: '0' :: hexDigit (c.toNat / 16) ::
      hexDigit (c.toNat % 16) :: text) = withChar none c (readStringBody none text) := by
  have hhex := hex4?_hexDigit c.toNat hcontrol
  have hlow : isLowSurrogate c.toNat = false := by
    simp only [isLowSurrogate, Bool.and_eq_false_iff, decide_eq_false_iff_not]
    omega
  have hhigh : isHighSurrogate c.toNat = false := by
    simp only [isHighSurrogate, Bool.and_eq_false_iff, decide_eq_false_iff_not]
    omega
  rw [readStringBody.eq_def]
  simp [hhex, hlow, hhigh]

theorem readStringBody_letter {e : Char} (text : List Char) (hne : e ≠ 'u')
    (hletter : letterEscape? e = some c) :
    readStringBody none ('\\' :: e :: text) = withChar none c (readStringBody none text) := by
  rw [readStringBody]
  · rw [hletter]
  · intro _ _ _ _ _ heq
    exact absurd heq hne

theorem readStringBody_plain (text : List Char) (hquote : c ≠ '"') (hslash : c ≠ '\\')
    (hprintable : ¬c.toNat < 0x20) :
    readStringBody none (c :: text) = withChar none c (readStringBody none text) := by
  rw [readStringBody.eq_def]
  simp [hslash, hprintable]

/-- An escaped character is read back. -/
theorem readStringBody_escapeChar (c : Char) (text : List Char) :
    readStringBody none (escapeChar c ++ text) = withChar none c (readStringBody none text) := by
  unfold escapeChar
  split
  case h_8 hquote hslash _ _ _ _ _ =>
    split
    case isTrue hcontrol => exact readStringBody_control text hcontrol
    case isFalse hprintable => exact readStringBody_plain text hquote hslash hprintable
  all_goals exact readStringBody_letter text (by decide) rfl

theorem readStringBody_quoted (text rest : List Char) :
    readStringBody none (text.flatMap escapeChar ++ '"' :: rest) = some (some text, rest) := by
  induction text with
  | nil => simp [readStringBody]
  | cons c text ih =>
      rw [List.flatMap_cons, List.append_assoc, readStringBody_escapeChar, ih]
      rfl

theorem quote_append (text : String) (rest : List Char) :
    quote text ++ rest = '"' :: (text.toList.flatMap escapeChar ++ '"' :: rest) := by
  simp [quote]

theorem skipSpace_quote (hblanks : ∀ c ∈ blanks, isSpace c = true) (text : String)
    (rest : List Char) :
    skipSpace (blanks ++ (quote text ++ rest)) =
      '"' :: (text.toList.flatMap escapeChar ++ '"' :: rest) := by
  rw [quote_append, skipSpace_append_cons hblanks rfl]

/-! ## Arrays and objects -/

theorem readValue_arr_nil :
    readValue (depth + 1) (levels + 1) ('[' :: ']' :: rest) = some (.arr [], rest) := by
  have hopen : skipSpace ('[' :: ']' :: rest) = '[' :: ']' :: rest := skipSpace_cons rfl
  have hclose : skipSpace (']' :: rest) = ']' :: rest := skipSpace_cons rfl
  simp only [readValue, hopen, hclose, nested]

theorem readValue_obj_nil :
    readValue (depth + 1) (levels + 1) ('\x7b' :: '\x7d' :: rest) = some (.obj [], rest) := by
  have hopen : skipSpace ('\x7b' :: '\x7d' :: rest) = '\x7b' :: '\x7d' :: rest :=
    skipSpace_cons rfl
  have hclose : skipSpace ('\x7d' :: rest) = '\x7d' :: rest := skipSpace_cons rfl
  simp only [readValue, hopen, hclose, nested]

/-- After an opening bracket, items are read if what comes next is not the closing one. -/
theorem readValue_arr {inner : List Char} {items : List Json}
    (hinner : skipSpace text = c :: inner) (hclose : c ≠ ']')
    (hitems : readItems (readValue depth levels) (c :: inner).length (c :: inner) =
      some (items, rest)) :
    readValue (depth + 1) (levels + 1) ('[' :: text) = some (.arr items, rest) := by
  have hopen : skipSpace ('[' :: text) = '[' :: text := skipSpace_cons rfl
  simp only [readValue, hopen, hinner, Nat.add_sub_cancel]
  split
  · rename_i heq
    exact absurd (List.cons.inj heq).1 hclose
  · rw [hitems]
    rfl

theorem readValue_obj {inner : List Char} {entries : List (String × Json)}
    (hinner : skipSpace text = c :: inner) (hclose : c ≠ '\x7d')
    (hentries : readEntries (readValue depth levels) (c :: inner).length (c :: inner) =
      some (some entries, rest)) :
    readValue (depth + 1) (levels + 1) ('\x7b' :: text) = some (.obj entries, rest) := by
  have hopen : skipSpace ('\x7b' :: text) = '\x7b' :: text := skipSpace_cons rfl
  simp only [readValue, hopen, hinner, Nat.add_sub_cancel]
  split
  · rename_i heq
    exact absurd (List.cons.inj heq).1 hclose
  · rw [hentries]
    rfl

/-! ## Lengths

The reader counts down the length of the text, so a text has to be as long as what is written
is deep, and as long as there are items. -/

section Length

variable (layout : Layout)

mutual

theorem nesting_le_length : ∀ (json : Json) (level : Nat) (rest : List Char),
    json.nesting + rest.length ≤ (layout.write level rest json).length
  | .null, _, _ => by
      simp only [nesting, Layout.write, List.length_append]
      omega
  | .bool true, _, _ => by
      simp only [nesting, Layout.write, List.length_append]
      omega
  | .bool false, _, _ => by
      simp only [nesting, Layout.write, List.length_append]
      omega
  | .int _, _, _ => by simp [nesting, Layout.write]
  | .decimal _ _, _, _ => by simp [nesting, Layout.write]
  | .str _, _, _ => by simp [nesting, Layout.write]
  | .raw _, _, _ => by simp [nesting, Layout.write]
  | .arr [], _, _ => by
      simp only [nesting, nestingItems, Layout.write, List.length_cons]
      omega
  | .arr (item :: more), level, rest => by
      have hitems := nestingItems_le_length (item :: more) (level + 1)
        (layout.gap level ++ ']' :: rest)
      simp only [List.length_append, List.length_cons] at hitems
      simp only [nesting, Layout.write, List.length_append, List.length_cons]
      omega
  | .obj [], _, _ => by
      simp only [nesting, nestingEntries, Layout.write, List.length_cons]
      omega
  | .obj (entry :: more), level, rest => by
      have hentries := nestingEntries_le_length (entry :: more) (level + 1)
        (layout.gap level ++ '\x7d' :: rest)
      simp only [List.length_append, List.length_cons] at hentries
      simp only [nesting, Layout.write, List.length_append, List.length_cons]
      omega

theorem nestingItems_le_length : ∀ (items : List Json) (level : Nat) (rest : List Char),
    nestingItems items + rest.length ≤ (layout.writeItems level rest items).length
  | [], _, _ => by simp [nestingItems, Layout.writeItems]
  | [item], level, rest => by
      have hitem := nesting_le_length item level rest
      simp only [nestingItems, Layout.writeItems, Nat.max_zero]
      exact hitem
  | item :: next :: more, level, rest => by
      have hmore := nestingItems_le_length (next :: more) level rest
      have hitem := nesting_le_length item level
        (',' :: (layout.gap level ++ layout.writeItems level rest (next :: more)))
      simp only [List.length_append, List.length_cons] at hitem
      rw [nestingItems, Layout.writeItems]
      omega

theorem nestingEntries_le_length : ∀ (entries : List (String × Json)) (level : Nat)
    (rest : List Char),
    nestingEntries entries + rest.length ≤ (layout.writeEntries level rest entries).length
  | [], _, _ => by simp [nestingEntries, Layout.writeEntries]
  | [(key, value)], level, rest => by
      have hvalue := nesting_le_length value level rest
      simp only [nestingEntries, Layout.writeEntries, List.length_append, List.length_cons,
        Nat.max_zero]
      omega
  | (key, value) :: next :: more, level, rest => by
      have hmore := nestingEntries_le_length (next :: more) level rest
      have hvalue := nesting_le_length value level
        (',' :: (layout.gap level ++ layout.writeEntries level rest (next :: more)))
      simp only [List.length_append, List.length_cons] at hvalue
      rw [nestingEntries, Layout.writeEntries, List.length_append, List.length_cons,
        List.length_append]
      omega

end

theorem length_le_writeItems (items : List Json) (level : Nat) (rest : List Char) :
    items.length + rest.length ≤ (layout.writeItems level rest items).length + 1 := by
  induction items with
  | nil => simp [Layout.writeItems]
  | cons item more ih =>
      cases more with
      | nil =>
          have hitem := nesting_le_length layout item level rest
          simp only [Layout.writeItems, List.length_cons, List.length_nil]
          omega
      | cons next more =>
          -- Each item but the last has a comma after it.
          have hitem := nesting_le_length layout item level
            (',' :: (layout.gap level ++ layout.writeItems level rest (next :: more)))
          simp only [List.length_append, List.length_cons] at hitem ih
          simp only [Layout.writeItems, List.length_cons]
          omega

theorem length_le_writeEntries (entries : List (String × Json)) (level : Nat)
    (rest : List Char) :
    entries.length + rest.length ≤ (layout.writeEntries level rest entries).length := by
  induction entries with
  | nil => simp [Layout.writeEntries]
  | cons entry more ih =>
      obtain ⟨key, value⟩ := entry
      cases more with
      | nil =>
          have hvalue := nesting_le_length layout value level rest
          simp only [Layout.writeEntries, List.length_append, List.length_cons, List.length_nil]
          omega
      | cons next more =>
          have hvalue := nesting_le_length layout value level
            (',' :: (layout.gap level ++ layout.writeEntries level rest (next :: more)))
          simp only [List.length_append, List.length_cons] at hvalue ih
          simp only [Layout.writeEntries, List.length_append, List.length_cons]
          omega

end Length

/-! ## Reading back -/

section ReadBack

variable (layout : Layout)

/-- The text of a value begins with its first token, and that closes nothing. -/
theorem write_head {json : Json} (htextual : json.isTextual = true) (level : Nat)
    (rest : List Char) :
    ∃ c tail, layout.write level rest json = c :: tail ∧ isSpace c = false ∧ c ≠ ']' := by
  cases json with
  | null => exact ⟨'n', _, by rw [Layout.write]; rfl, rfl, by decide⟩
  | bool b =>
      cases b with
      | true => exact ⟨'t', _, by rw [Layout.write]; rfl, rfl, by decide⟩
      | false => exact ⟨'f', _, by rw [Layout.write]; rfl, rfl, by decide⟩
  | str text => exact ⟨'"', _, by rw [Layout.write, quote_append], rfl, by decide⟩
  | arr items =>
      cases items with
      | nil => exact ⟨'[', _, by rw [Layout.write], rfl, by decide⟩
      | cons item more => exact ⟨'[', _, by rw [Layout.write], rfl, by decide⟩
  | obj entries =>
      cases entries with
      | nil => exact ⟨'\x7b', _, by rw [Layout.write], rfl, by decide⟩
      | cons entry more => exact ⟨'\x7b', _, by rw [Layout.write], rfl, by decide⟩
  | int n => simp [isTextual] at htextual
  | decimal mantissa exponent => simp [isTextual] at htextual
  | raw text => simp [isTextual] at htextual

theorem writeItems_head {item : Json} {more : List Json}
    (htextual : textualItems (item :: more) = true) (level : Nat) (rest : List Char) :
    ∃ c tail, layout.writeItems level rest (item :: more) = c :: tail ∧
      isSpace c = false ∧ c ≠ ']' := by
  rw [textualItems, Bool.and_eq_true] at htextual
  cases more with
  | nil =>
      rw [Layout.writeItems]
      exact write_head layout htextual.1 level rest
  | cons next more =>
      rw [Layout.writeItems]
      exact write_head layout htextual.1 level _

theorem writeEntries_head (entry : String × Json) (more : List (String × Json)) (level : Nat)
    (rest : List Char) :
    ∃ tail, layout.writeEntries level rest (entry :: more) = '"' :: tail := by
  obtain ⟨key, value⟩ := entry
  cases more with
  | nil => exact ⟨_, by rw [Layout.writeEntries, quote_append]⟩
  | cons next more => exact ⟨_, by rw [Layout.writeEntries, quote_append]⟩

theorem readValue_scalar {json : Json} (hspace : isSpace c = false) (harr : c ≠ '[')
    (hobj : c ≠ '\x7b') (hscalar : readScalar (c :: text) = some (json, rest)) :
    readValue (depth + 1) levels (c :: text) = some (json, rest) := by
  have hskip : skipSpace (c :: text) = c :: text := skipSpace_cons hspace
  simp only [readValue, hskip]
  split
  · rename_i heq
    exact absurd (List.cons.inj heq).1 harr
  · rename_i heq
    exact absurd (List.cons.inj heq).1 hobj
  · exact hscalar

theorem readScalar_null : readScalar ("null".toList ++ rest) = some (.null, rest) := by
  have htext : "null".toList ++ rest = 'n' :: ("ull".toList ++ rest) := rfl
  rw [htext, readScalar, expect?_append]
  rfl

theorem readScalar_true : readScalar ("true".toList ++ rest) = some (.bool true, rest) := by
  have htext : "true".toList ++ rest = 't' :: ("rue".toList ++ rest) := rfl
  rw [htext, readScalar, expect?_append]
  rfl

theorem readScalar_false : readScalar ("false".toList ++ rest) = some (.bool false, rest) := by
  have htext : "false".toList ++ rest = 'f' :: ("alse".toList ++ rest) := rfl
  rw [htext, readScalar, expect?_append]
  rfl

theorem readScalar_str (text : String) :
    readScalar (quote text ++ rest) = some (.str text, rest) := by
  rw [quote_append, readScalar, readStringBody_quoted]
  simp

section Sequences

variable {read : List Char → Option (Json × List Char)} {json : Json} {after : List Char}

theorem readItems_cons {more : List Json} (hitem : read text = some (json, ',' :: after))
    (hmore : readItems read count after = some (more, rest)) :
    readItems read (count + 1) text = some (json :: more, rest) := by
  have hcomma : skipSpace (',' :: after) = ',' :: after := skipSpace_cons rfl
  simp only [readItems, hitem, hcomma, hmore, Option.map_some]

theorem readItems_last (hblanks : ∀ c ∈ blanks, isSpace c = true)
    (hitem : read text = some (json, blanks ++ ']' :: rest)) :
    readItems read (count + 1) text = some ([json], rest) := by
  have hclose : skipSpace (blanks ++ ']' :: rest) = ']' :: rest :=
    skipSpace_append_cons hblanks rfl
  simp only [readItems, hitem, hclose]

variable {key : String}

theorem readEntries_cons {more : List (String × Json)} {value : List Char}
    (hblanks : ∀ c ∈ blanks, isSpace c = true) (hvalue : read value = some (json, ',' :: after))
    (hmore : readEntries read count after = some (some more, rest)) :
    readEntries read (count + 1) (blanks ++ (quote key ++ ':' :: value)) =
      some (some ((key, json) :: more), rest) := by
  have hcolon : skipSpace (':' :: value) = ':' :: value := skipSpace_cons rfl
  have hcomma : skipSpace (',' :: after) = ',' :: after := skipSpace_cons rfl
  simp only [readEntries, skipSpace_quote hblanks, readStringBody_quoted, hcolon, hvalue, hcomma,
    hmore, Option.map_some, Option.bind_some, String.ofList_toList]

theorem readEntries_last {value closing : List Char} (hblanks : ∀ c ∈ blanks, isSpace c = true)
    (hclosing : ∀ c ∈ closing, isSpace c = true)
    (hvalue : read value = some (json, closing ++ '\x7d' :: rest)) :
    readEntries read (count + 1) (blanks ++ (quote key ++ ':' :: value)) =
      some (some [(key, json)], rest) := by
  have hcolon : skipSpace (':' :: value) = ':' :: value := skipSpace_cons rfl
  have hclose : skipSpace (closing ++ '\x7d' :: rest) = '\x7d' :: rest :=
    skipSpace_append_cons hclosing rfl
  simp only [readEntries, skipSpace_quote hblanks, readStringBody_quoted, hcolon, hvalue, hclose,
    Option.map_some, String.ofList_toList]

end Sequences

variable {layout}

-- The induction is on the value.  The text after it and the blanks before it vary, because a
-- value is read in front of the rest of the array or object that it stands in.
mutual

/-- A value is read back from its text in any layout. -/
theorem readValue_write : ∀ (json : Json) {depth levels : Nat} (level : Nat) (rest : List Char),
    json.isTextual = true → json.nesting ≤ depth → json.nesting ≤ levels →
    readValue (depth + 1) levels (layout.write level rest json) = some (json, rest)
  | .null, _, _, _, _, _, _, _ => by
      rw [Layout.write]
      exact readValue_scalar rfl (by decide) (by decide) readScalar_null
  | .bool true, _, _, _, _, _, _, _ => by
      rw [Layout.write]
      exact readValue_scalar rfl (by decide) (by decide) readScalar_true
  | .bool false, _, _, _, _, _, _, _ => by
      rw [Layout.write]
      exact readValue_scalar rfl (by decide) (by decide) readScalar_false
  | .str text, _, _, _, _, _, _, _ => by
      rw [Layout.write]
      exact readValue_scalar rfl (by decide) (by decide) (readScalar_str text)
  | .arr [], _, levels + 1, _, _, _, _, _ => by
      rw [Layout.write]
      exact readValue_arr_nil
  | .obj [], _, levels + 1, _, _, _, _, _ => by
      rw [Layout.write]
      exact readValue_obj_nil
  | .arr (item :: more), depth + 1, levels + 1, level, rest, htextual, hdepth, hlevels => by
      simp only [isTextual] at htextual
      simp only [nesting, Nat.add_le_add_iff_right] at hdepth hlevels
      obtain ⟨c, tail, hhead, hspace, hclose⟩ := writeItems_head layout htextual (level + 1)
        (layout.gap level ++ ']' :: rest)
      -- The count is the length of the text, which is enough.
      have hcount := length_le_writeItems layout (item :: more) (level + 1)
        (layout.gap level ++ ']' :: rest)
      rw [hhead] at hcount
      have hitems := readItems_write (item :: more) (c :: tail).length (level + 1) []
        (layout.gap level) rest (List.cons_ne_nil _ _) (by simp) (layout.gap_blank level) htextual
        hdepth hlevels (by
          simp only [List.length_append, List.length_cons] at hcount ⊢
          omega)
      rw [List.nil_append, hhead] at hitems
      rw [Layout.write, hhead]
      exact readValue_arr (skipSpace_append_cons (layout.gap_blank _) hspace) hclose hitems
  | .obj (entry :: more), depth + 1, levels + 1, level, rest, htextual, hdepth, hlevels => by
      simp only [isTextual] at htextual
      simp only [nesting, Nat.add_le_add_iff_right] at hdepth hlevels
      obtain ⟨tail, hhead⟩ := writeEntries_head layout entry more (level + 1)
        (layout.gap level ++ '\x7d' :: rest)
      have hcount := length_le_writeEntries layout (entry :: more) (level + 1)
        (layout.gap level ++ '\x7d' :: rest)
      rw [hhead] at hcount
      have hentries := readEntries_write (entry :: more) ('"' :: tail).length (level + 1) []
        (layout.gap level) rest (List.cons_ne_nil _ _) (by simp) (layout.gap_blank level) htextual
        hdepth hlevels (Nat.le_of_add_right_le hcount)
      rw [List.nil_append, hhead] at hentries
      rw [Layout.write, hhead]
      exact readValue_obj (skipSpace_append_cons (layout.gap_blank _) rfl) (by decide) hentries
  | .arr _, _, 0, _, _, _, _, hlevels => by simp [nesting] at hlevels
  | .obj _, _, 0, _, _, _, _, hlevels => by simp [nesting] at hlevels
  | .arr (_ :: _), 0, _, _, _, _, hdepth, _ => by simp [nesting] at hdepth
  | .obj (_ :: _), 0, _, _, _, _, hdepth, _ => by simp [nesting] at hdepth

theorem readItems_write : ∀ (items : List Json) {depth levels : Nat} (count level : Nat)
    (blanks closing rest : List Char), items ≠ [] → (∀ c ∈ blanks, isSpace c = true) →
    (∀ c ∈ closing, isSpace c = true) → textualItems items = true →
    nestingItems items ≤ depth → nestingItems items ≤ levels → items.length ≤ count →
    readItems (readValue (depth + 1) levels) count
      (blanks ++ layout.writeItems level (closing ++ ']' :: rest) items) = some (items, rest)
  | [], _, _, _, _, _, _, _, hne, _, _, _, _, _, _ => absurd rfl hne
  | [item], _, _, count + 1, level, blanks, closing, rest, _, hblanks, hclosing, htextual, hdepth,
      hlevels, _ => by
      simp only [textualItems, Bool.and_true] at htextual
      simp only [nestingItems, Nat.max_zero] at hdepth hlevels
      -- The last item is followed by the closing bracket, on its own level.
      refine readItems_last hclosing ?_
      rw [Layout.writeItems, readValue_append hblanks]
      exact readValue_write item level _ htextual hdepth hlevels
  | item :: next :: more, _, _, count + 1, level, blanks, closing, rest, _, hblanks, hclosing,
      htextual, hdepth, hlevels, hcount => by
      rw [textualItems, Bool.and_eq_true] at htextual
      rw [nestingItems, Nat.max_le] at hdepth hlevels
      have hmore := readItems_write (next :: more) count level (layout.gap level) closing rest
        (List.cons_ne_nil _ _) (layout.gap_blank level) hclosing htextual.2 hdepth.2 hlevels.2
        (Nat.le_of_succ_le_succ hcount)
      -- The comma is taken off, and the blanks after it stand in front of the next item.
      refine readItems_cons ?_ hmore
      rw [Layout.writeItems, readValue_append hblanks]
      exact readValue_write item level _ htextual.1 hdepth.1 hlevels.1

theorem readEntries_write : ∀ (entries : List (String × Json)) {depth levels : Nat}
    (count level : Nat) (blanks closing rest : List Char), entries ≠ [] →
    (∀ c ∈ blanks, isSpace c = true) → (∀ c ∈ closing, isSpace c = true) →
    textualEntries entries = true → nestingEntries entries ≤ depth →
    nestingEntries entries ≤ levels → entries.length ≤ count →
    readEntries (readValue (depth + 1) levels) count
      (blanks ++ layout.writeEntries level (closing ++ '\x7d' :: rest) entries) =
        some (some entries, rest)
  | [], _, _, _, _, _, _, _, hne, _, _, _, _, _, _ => absurd rfl hne
  | [(key, value)], _, _, count + 1, level, blanks, closing, rest, _, hblanks, hclosing, htextual,
      hdepth, hlevels, _ => by
      simp only [textualEntries, Bool.and_true] at htextual
      simp only [nestingEntries, Nat.max_zero] at hdepth hlevels
      rw [Layout.writeEntries]
      refine readEntries_last hblanks hclosing ?_
      rw [readValue_append layout.colon_blank]
      exact readValue_write value level _ htextual hdepth hlevels
  | (key, value) :: next :: more, _, _, count + 1, level, blanks, closing, rest, _, hblanks,
      hclosing, htextual, hdepth, hlevels, hcount => by
      rw [textualEntries, Bool.and_eq_true] at htextual
      rw [nestingEntries, Nat.max_le] at hdepth hlevels
      have hmore := readEntries_write (next :: more) count level (layout.gap level) closing rest
        (List.cons_ne_nil _ _) (layout.gap_blank level) hclosing htextual.2 hdepth.2 hlevels.2
        (Nat.le_of_succ_le_succ hcount)
      rw [Layout.writeEntries]
      refine readEntries_cons hblanks ?_ hmore
      rw [readValue_append layout.colon_blank]
      exact readValue_write value level _ htextual.1 hdepth.1 hlevels.1

end

theorem scan?_write {json : Json} (htextual : json.isTextual = true)
    (hnesting : json.nesting ≤ maxDepth) :
    scan? (String.ofList (layout.write 0 [] json)) = some json := by
  have hlength : json.nesting ≤ (layout.write 0 [] json).length :=
    nesting_le_length layout json 0 []
  have hread : readValue ((layout.write 0 [] json).length + 1) maxDepth
      (layout.write 0 [] json) = some (json, []) :=
    readValue_write json 0 [] htextual hlength hnesting
  simp only [scan?, String.toList_ofList, hread]
  rfl

end ReadBack

theorem scan?_compact {json : Json} (htextual : json.isTextual = true)
    (hnesting : json.nesting ≤ maxDepth) : scan? json.compact = some json := by
  rw [compact, compactOnto_eq json 0]
  exact scan?_write htextual hnesting

theorem scan?_pretty {json : Json} (htextual : json.isTextual = true)
    (hnesting : json.nesting ≤ maxDepth) : scan? json.pretty = some json := by
  rw [pretty, prettyOnto_eq json 0]
  exact scan?_write htextual hnesting

/-! ## The nesting of what is read -/

/-- A number has a value or is kept as it is written. -/
theorem nesting_ofNumber? (negative : Bool) (whole : List Char) (fraction : Option (List Char))
    (exponent : Option Int) (written : String) :
    ((ofNumber? negative whole fraction exponent).getD (.raw written)).nesting = 0 := by
  unfold ofNumber?
  extract_lets mantissa signed
  split_ifs
  · rfl
  · rfl
  · rfl

theorem nesting_readNumber {negative : Bool} {json : Json}
    (hread : readNumber negative text = some (json, rest)) : json.nesting = 0 := by
  simp only [readNumber] at hread
  split at hread
  · cases hread
  · split at hread
    · cases hread
    · split at hread
      · cases hread
      · split at hread
        · cases hread
        · obtain ⟨rfl, -⟩ := Prod.mk.inj (Option.some.inj hread)
          exact nesting_ofNumber? ..

theorem nesting_readScalar {json : Json} (hread : readScalar text = some (json, rest)) :
    json.nesting = 0 := by
  unfold readScalar at hread
  split at hread
  · obtain ⟨_, _, heq⟩ := Option.map_eq_some_iff.mp hread
    cases heq
    rfl
  · obtain ⟨_, _, heq⟩ := Option.map_eq_some_iff.mp hread
    cases heq
    rfl
  · obtain ⟨_, _, heq⟩ := Option.map_eq_some_iff.mp hread
    cases heq
    rfl
  · obtain ⟨⟨body, _⟩, _, heq⟩ := Option.map_eq_some_iff.mp hread
    cases body with
    | none =>
        cases heq
        rfl
    | some body =>
        cases heq
        rfl
  · exact nesting_readNumber hread
  · exact nesting_readNumber hread

section Nesting

variable {read : List Char → Option (Json × List Char)}

theorem nestingItems_readItems
    (hbound : ∀ {text rest json}, read text = some (json, rest) → json.nesting ≤ levels)
    {items : List Json} (hitems : readItems read count text = some (items, rest)) :
    nestingItems items ≤ levels := by
  induction count generalizing text rest items with
  | zero => simp [readItems] at hitems
  | succ count ih =>
      unfold readItems at hitems
      split at hitems
      · cases hitems
      · rename_i json after hitem
        split at hitems
        · obtain ⟨⟨more, _⟩, hmore, heq⟩ := Option.map_eq_some_iff.mp hitems
          cases heq
          exact Nat.max_le.mpr ⟨hbound hitem, ih hmore⟩
        · cases hitems
          exact Nat.max_le.mpr ⟨hbound hitem, Nat.zero_le _⟩
        · cases hitems

theorem nestingEntries_readEntries
    (hbound : ∀ {text rest json}, read text = some (json, rest) → json.nesting ≤ levels)
    {entries : List (String × Json)}
    (hentries : readEntries read count text = some (some entries, rest)) :
    nestingEntries entries ≤ levels := by
  induction count generalizing text rest entries with
  | zero => simp [readEntries] at hentries
  | succ count ih =>
      unfold readEntries at hentries
      split at hentries
      case h_2 => cases hentries
      split at hentries
      case h_1 => cases hentries
      rename_i key _ _
      split at hentries
      case h_2 => cases hentries
      split at hentries
      case h_1 => cases hentries
      rename_i json after hvalue
      extract_lets entry at hentries
      split at hentries
      · obtain ⟨⟨more, _⟩, hmore, heq⟩ := Option.map_eq_some_iff.mp hentries
        obtain ⟨hall, rfl⟩ := Prod.mk.inj heq
        obtain ⟨_, hentry, hall⟩ := Option.bind_eq_some_iff.mp hall
        obtain ⟨_, rfl, rfl⟩ := Option.map_eq_some_iff.mp hall
        obtain ⟨_, _, rfl⟩ := Option.map_eq_some_iff.mp hentry
        exact Nat.max_le.mpr ⟨hbound hvalue, ih hmore⟩
      · obtain ⟨hall, rfl⟩ := Prod.mk.inj (Option.some.inj hentries)
        obtain ⟨_, hentry, rfl⟩ := Option.map_eq_some_iff.mp hall
        obtain ⟨_, _, rfl⟩ := Option.map_eq_some_iff.mp hentry
        exact Nat.max_le.mpr ⟨hbound hvalue, Nat.zero_le _⟩
      · cases hentries

theorem nesting_nested {value : Option Json}
    (hbound : ∀ json, value = some json → json.nesting ≤ (levels - 1) + 1) :
    (nested levels text rest value).nesting ≤ levels := by
  unfold nested
  split
  · exact hbound _ rfl
  · exact Nat.zero_le _

/-- What is read is not nested deeper than there are levels. -/
theorem nesting_readValue {json : Json}
    (hread : readValue depth levels text = some (json, rest)) : json.nesting ≤ levels := by
  induction depth generalizing levels text rest json with
  | zero => simp [readValue] at hread
  | succ depth ih =>
      simp only [readValue] at hread
      split at hread
      · split at hread
        · cases hread
          refine nesting_nested ?_
          rintro _ ⟨⟩
          exact Nat.le_add_left 1 _
        · obtain ⟨⟨items, _⟩, hitems, heq⟩ := Option.map_eq_some_iff.mp hread
          cases heq
          refine nesting_nested ?_
          rintro _ ⟨⟩
          exact Nat.succ_le_succ (nestingItems_readItems ih hitems)
      · split at hread
        · cases hread
          refine nesting_nested ?_
          rintro _ ⟨⟩
          exact Nat.le_add_left 1 _
        · obtain ⟨⟨entries, _⟩, hentries, heq⟩ := Option.map_eq_some_iff.mp hread
          cases heq
          refine nesting_nested ?_
          intro json hjson
          obtain ⟨entries, rfl, rfl⟩ := Option.map_eq_some_iff.mp hjson
          exact Nat.succ_le_succ (nestingEntries_readEntries ih hentries)
      · rw [nesting_readScalar hread]
        exact Nat.zero_le _

end Nesting

theorem nesting_le_of_scan? {text : String} {json : Json} (hscan : scan? text = some json) :
    json.nesting ≤ maxDepth := by
  unfold scan? at hscan
  extract_lets chars at hscan
  split at hscan
  · rename_i value rest hread
    split_ifs at hscan
    cases hscan
    exact nesting_readValue hread
  · cases hscan

end GoAtlas.Json
