import GoAtlas.Proofs.Toml.Strings
import GoAtlas.Toml.Read

/-!
# Reading written lines

A written value is read by itself from the start of a line (`Writes`): strings, lists of them,
booleans, and natural numbers of 63 bits.  A document is read line by line, so the entries of a
section are those of its lines in order (`reads_lines`).

Dates are tried before numbers.  A number that ends its line is none, because a date has its
first mark after two or four digits.
-/

namespace GoAtlas.Toml

variable {c d : Char} {text rest value body : List Char} {key : String} {toml : Toml}
  {draft : Draft} {entries inner before : Entries} {depth count : Nat}

/-! ## Digits -/

theorem isDigit_iff : isDigit c = true ↔ c.isDigit = true := by
  simp [isDigit, Char.isDigit, Char.le_def, UInt32.le_iff_toNat_le]

theorem isDigit_of_mem_toDigits {n : Nat} (hc : c ∈ Nat.toDigits 10 n) : isDigit c = true :=
  isDigit_iff.mpr (Nat.isDigit_of_mem_toDigits (by decide) (by decide) hc)

theorem digitsValue_toDigits (n : Nat) : digitsValue (Nat.toDigits 10 n) = n := by
  have hfold := Nat.ofDigitChars_ten_toDigits (n := n)
  rw [Nat.ofDigitChars_eq_foldl] at hfold
  unfold digitsValue
  simpa only [Nat.mul_comm] using hfold

/-- Only zero is written with a zero in front. -/
theorem head_toDigits {n : Nat} (hn : n ≠ 0) : (Nat.toDigits 10 n).head? ≠ some '0' := by
  induction n using Nat.strongRecOn with
  | ind n ih =>
      by_cases hsmall : n < 10
      · have hdigits : ∀ n < 10, n ≠ 0 → (Nat.toDigits 10 n).head? ≠ some '0' := by decide
        exact hdigits n hsmall hn
      · have hlast := Nat.toDigits_of_base_le (b := 10) (n := n) (by decide) (by omega)
        have hfront := ih (n / 10) (by omega) (by omega)
        rw [hlast, List.head?_append, List.head?_eq_some_head Nat.toDigits_ne_nil]
        rwa [List.head?_eq_some_head Nat.toDigits_ne_nil] at hfront

theorem readDigits_append {digits : List Char} (hdigits : ∀ c ∈ digits, isDigit c = true)
    (hne : digits ≠ []) (rest : List Char) :
    readDigits isDigit (digits ++ '\n' :: rest) = some (digits, '\n' :: rest) := by
  induction digits with
  | nil => exact absurd rfl hne
  | cons c digits ih =>
      have hc : isDigit c = true := hdigits c (List.mem_cons_self ..)
      cases digits with
      | nil =>
          have hbreak : isDigit '\n' = false := by decide
          simp [readDigits, hc, hbreak]
      | cons d digits =>
          have hd : isDigit d = true := hdigits d (by simp)
          have hscore : d ≠ '_' := by
            rintro rfl
            exact absurd hd (by decide)
          have hrest := ih (fun c hc => hdigits c (List.mem_cons_of_mem _ hc)) (by simp)
          rw [List.cons_append] at hrest ⊢
          rw [List.cons_append, readDigits, hrest]
          · simp [hc, hd, prepend]
          · exact hscore

/-! ## Numbers are no dates -/

theorem readPair_some {least most n : Nat} (hread : readPair least most text = some (n, rest)) :
    ∃ a b, text = a :: b :: rest ∧ isDigit a = true ∧ isDigit b = true := by
  unfold readPair at hread
  split at hread
  case h_1 a b more =>
    simp only [Option.ite_none_right_eq_some, Bool.and_eq_true, Option.some.injEq,
      Prod.mk.injEq] at hread
    obtain ⟨⟨⟨⟨ha, hb⟩, -⟩, -⟩, -, rfl⟩ := hread
    exact ⟨a, b, rfl, ha, hb⟩
  case h_2 => cases hread

theorem expect?_one (hread : expect? [c] text = some rest) : text = c :: rest := by
  cases text with
  | nil => cases hread
  | cons d text =>
      simp only [expect?, Option.ite_none_right_eq_some, Option.some.injEq] at hread
      rw [hread.1, hread.2]

/-- What comes after the digits in front of a date or time is a mark. -/
theorem dropWhile_of_moment (hread : readMoment text ≠ none) :
    (text.dropWhile isDigit).head? = some '-' ∨ (text.dropWhile isDigit).head? = some ':' := by
  have hmarks : isDigit '-' = false ∧ isDigit ':' = false := by decide
  unfold readMoment at hread
  split at hread
  case h_1 _ hdate =>
    left
    simp only [afterDate?, Option.bind_eq_bind, Option.bind_eq_some_iff] at hdate
    obtain ⟨⟨_, _⟩, hcentury, ⟨_, _⟩, hyear, _, hmark, -⟩ := hdate
    obtain ⟨a, b, rfl, ha, hb⟩ := readPair_some hcentury
    obtain ⟨c, d, rfl, hc, hd⟩ := readPair_some hyear
    have hafter := expect?_one hmark
    simp only at hafter
    simp [hafter, ha, hb, hc, hd, hmarks.1]
  case h_2 =>
    right
    rw [ne_eq, Option.map_eq_none_iff] at hread
    obtain ⟨_, htime⟩ := Option.ne_none_iff_exists'.mp hread
    simp only [afterTime?, Option.bind_eq_bind, Option.bind_eq_some_iff] at htime
    obtain ⟨⟨_, _⟩, hhour, _, hmark, -⟩ := htime
    obtain ⟨a, b, rfl, ha, hb⟩ := readPair_some hhour
    have hafter := expect?_one hmark
    simp only at hafter
    simp [hafter, ha, hb, hmarks.2]

theorem dropWhile_digits {digits : List Char} (hdigits : ∀ c ∈ digits, isDigit c = true) :
    (digits ++ '\n' :: rest).dropWhile isDigit = '\n' :: rest := by
  rw [List.dropWhile_append_of_pos hdigits]
  rfl

/-! ## Values -/

/-- A written value, which is read from the start of a line and ends with it. -/
structure Writes (value : List Char) (toml : Toml) : Prop where
  head : ∀ c ∈ value.head?, Quoted.isSpace c = false
  ne_nil : value ≠ []
  noReturn : '\r' ∉ value
  read : ∀ rest, readValue maxDepth (value ++ '\n' :: rest) = some (toml, '\n' :: rest)

theorem readValue_scalar (hlist : c ≠ '[') (htable : c ≠ '\x7b') :
    readValue depth (c :: text) = readScalar (c :: text) := by
  cases depth with
  | zero =>
      unfold readValue
      split
      case h_1 heq => exact absurd (List.cons.inj heq).1 hlist
      case h_2 heq => exact absurd (List.cons.inj heq).1 htable
      case h_3 => rfl
  | succ depth =>
      unfold readValue
      split
      case h_1 heq => exact absurd (List.cons.inj heq).1 hlist
      case h_2 heq => exact absurd (List.cons.inj heq).1 htable
      case h_3 => rfl

/-- A written string is read, if no quote follows. -/
theorem readValue_write (hdouble : rest.head? ≠ some '"') (hsingle : rest.head? ≠ some '\'')
    (text : List Char) :
    readValue depth (Quoted.write text ++ rest) = some (.str (String.ofList text), rest) := by
  have hread := Quoted.read_write hdouble hsingle text
  obtain ⟨quote, tail, hwrite, hquote⟩ := Quoted.write_head text
  rw [hwrite, List.cons_append] at hread ⊢
  rcases hquote with rfl | rfl
  · rw [readValue_scalar (by decide) (by decide), readScalar, hread]
    rfl
  · rw [readValue_scalar (by decide) (by decide), readScalar, hread]
    rfl

theorem writes_string (text : List Char) :
    Writes (Quoted.write text) (.str (String.ofList text)) := by
  obtain ⟨quote, tail, hwrite, hquote⟩ := Quoted.write_head text
  refine ⟨?_, by simp [hwrite], Quoted.not_mem_write text, fun rest =>
    readValue_write (by simp) (by simp) text⟩
  rintro c hc
  rw [hwrite] at hc
  cases hc
  rcases hquote with rfl | rfl <;> rfl

theorem writes_true : Writes "true".toList (.bool true) :=
  ⟨by simp [Quoted.isSpace], by simp, by simp, fun rest => by
    simp [readValue_scalar, readScalar, expect?]⟩

theorem writes_false : Writes "false".toList (.bool false) :=
  ⟨by simp [Quoted.isSpace], by simp, by simp, fun rest => by
    simp [readValue_scalar, readScalar, expect?]⟩

/-- A text that starts with a digit is a number, if it is no date. -/
theorem readValue_digit (hdigit : isDigit c = true) (hmoment : readMoment (c :: text) = none) :
    readValue depth (c :: text) = readNumber (c :: text) := by
  have hother : c ≠ '[' ∧ c ≠ '\x7b' ∧ c ≠ 't' ∧ c ≠ 'f' ∧ c ≠ '"' ∧ c ≠ '\'' := by
    refine ⟨?_, ?_, ?_, ?_, ?_, ?_⟩ <;> rintro rfl <;> exact absurd hdigit (by decide)
  obtain ⟨hlist, htable, ht, hf, hdouble, hsingle⟩ := hother
  rw [readValue_scalar hlist htable]
  unfold readScalar
  split
  case h_1 heq => exact absurd (List.cons.inj heq).1 ht
  case h_2 heq => exact absurd (List.cons.inj heq).1 hf
  case h_3 heq => exact absurd (List.cons.inj heq).1 hdouble
  case h_4 heq => exact absurd (List.cons.inj heq).1 hsingle
  case h_5 => rw [hmoment]

theorem readDecimal_digits {digits whole : List Char}
    (hwhole : readWhole digits = some (whole, '\n' :: rest))
    (hlimit : digitsValue whole < signedLimit) :
    readDecimal text false digits = some (.int (digitsValue whole), '\n' :: rest) := by
  have hint : isInt64 (digitsValue whole) = true := by
    simp only [isInt64, Bool.and_eq_true, decide_eq_true_eq]
    omega
  simp [readDecimal, hwhole, readFraction, readExponent, int64?, hint]

/-- A number without a sign is read digit by digit. -/
theorem readNumber_digits {digits : List Char} (hdigits : ∀ c ∈ digits, isDigit c = true)
    (hne : digits ≠ []) (hzero : digits.head? = some '0' → digits = ['0'])
    (hlimit : digitsValue digits < signedLimit) (rest : List Char) :
    readNumber (digits ++ '\n' :: rest) = some (.int (digitsValue digits), '\n' :: rest) := by
  cases digits with
  | nil => exact absurd rfl hne
  | cons c digits =>
      by_cases hc : c = '0'
      · have hsingle : c :: digits = ['0'] := hzero (by simp [hc])
        have hwhole : readWhole ('0' :: '\n' :: rest) = some (['0'], '\n' :: rest) := rfl
        rw [hsingle] at hlimit ⊢
        simp [readNumber, readSign, readDecimal_digits hwhole hlimit]
      · have hread := readDigits_append hdigits hne rest
        have hdigit := hdigits c (List.mem_cons_self ..)
        have hother : c ≠ '-' ∧ c ≠ '+' ∧ c ≠ 'i' ∧ c ≠ 'n' := by
          refine ⟨?_, ?_, ?_, ?_⟩ <;> rintro rfl <;> exact absurd hdigit (by decide)
        have hwhole :
            readWhole (c :: digits ++ '\n' :: rest) = some (c :: digits, '\n' :: rest) := by
          rw [List.cons_append] at hread ⊢
          rw [readWhole, hread]
          exact fun _ heq => hc (List.cons.inj heq).1
        rw [List.cons_append] at hwhole ⊢
        simp [readNumber, readSign, hc, hother, readDecimal_digits hwhole hlimit]

theorem writes_natural {n : Nat} (hlimit : n < signedLimit) :
    Writes (Nat.toDigits 10 n) (.int n) := by
  have hdigits : ∀ c ∈ Nat.toDigits 10 n, isDigit c = true := fun c => isDigit_of_mem_toDigits
  have hvalue := digitsValue_toDigits n
  have hzero : (Nat.toDigits 10 n).head? = some '0' → Nat.toDigits 10 n = ['0'] := by
    by_cases hn : n = 0
    · rw [hn]
      exact fun _ => rfl
    · exact fun hhead => absurd hhead (head_toDigits hn)
  refine ⟨?_, Nat.toDigits_ne_nil, ?_, fun rest => ?_⟩
  · intro c hc
    have hdigit := hdigits c (List.mem_of_mem_head? hc)
    cases hspace : Quoted.isSpace c with
    | false => rfl
    | true =>
        rcases (by simpa [Quoted.isSpace] using hspace : c = ' ' ∨ c = '\t') with rfl | rfl
        · exact absurd hdigit (by decide)
        · exact absurd hdigit (by decide)
  · exact fun hin => absurd (hdigits _ hin) (by decide)
  · have hnumber := readNumber_digits hdigits Nat.toDigits_ne_nil hzero (by rwa [hvalue]) rest
    have hmoment : readMoment (Nat.toDigits 10 n ++ '\n' :: rest) = none := by
      cases hread : readMoment (Nat.toDigits 10 n ++ '\n' :: rest) with
      | none => rfl
      | some moment =>
          have hsome : readMoment (Nat.toDigits 10 n ++ '\n' :: rest) ≠ none := by simp [hread]
          have hafter := dropWhile_of_moment hsome
          rw [dropWhile_digits hdigits] at hafter
          simp at hafter
    obtain ⟨c, tail, hcons⟩ := List.exists_cons_of_ne_nil (Nat.toDigits_ne_nil (b := 10) (n := n))
    have hdigit := hdigits c (by simp [hcons])
    rw [hvalue, hcons, List.cons_append] at hnumber
    rw [hcons, List.cons_append] at hmoment ⊢
    rw [readValue_digit hdigit hmoment, hnumber]

/-! ## Lists -/

theorem skipFiller_cons (hspace : Quoted.isSpace c = false) (hbreak : c ≠ '\n') (hmark : c ≠ '#') :
    skipFiller false (c :: text) = some (c :: text) := by
  simp [skipFiller, hspace, hbreak, hmark]

theorem skipFiller_write (text rest : List Char) :
    skipFiller false (Quoted.write text ++ rest) = some (Quoted.write text ++ rest) := by
  obtain ⟨quote, tail, hwrite, hquote⟩ := Quoted.write_head text
  rw [hwrite, List.cons_append]
  rcases hquote with rfl | rfl <;> exact skipFiller_cons rfl (by decide) (by decide)

/-- An item is read if it is no closing bracket. -/
theorem readItems_succ {item : Reader Toml} (hfiller : skipFiller false text = some (c :: body))
    (hclose : c ≠ ']') (hitem : item (c :: body) = some (toml, rest)) :
    readItems item (count + 1) text =
      match skipFiller false rest with
      | some (',' :: rest) =>
          (readItems item count rest).map fun (more, rest) => (toml :: more, rest)
      | some (']' :: rest) => some ([toml], rest)
      | _ => none := by
  rw [readItems, hfiller]
  split
  case h_1 heq => cases heq
  case h_2 heq => exact absurd (List.cons.inj (Option.some.inj heq)).1 hclose
  case h_3 heq =>
    cases heq
    exact hitem ▸ rfl

/-- Items with a line for each are read one by one. -/
theorem readItems_lines (texts : List String) (hcount : texts.length < count) :
    readItems (readValue depth) count
        ('\n' :: (texts.flatMap (fun text => "    ".toList ++ Quoted.write text.toList ++
          ",\n".toList) ++ ']' :: rest)) =
      some (texts.map .str, rest) := by
  induction texts generalizing count with
  | nil =>
      obtain ⟨count, rfl⟩ := Nat.exists_eq_add_of_lt hcount
      simp [readItems, skipFiller, Quoted.isSpace]
  | cons text texts ih =>
      obtain ⟨count, rfl⟩ := Nat.exists_eq_add_one_of_ne_zero (Nat.ne_zero_of_lt hcount)
      have hmore := ih (show texts.length < count by simpa using hcount)
      obtain ⟨quote, tail, hwrite, hquote⟩ := Quoted.write_head text.toList
      have hclose : quote ≠ ']' := by rcases hquote with rfl | rfl <;> decide
      generalize hnext : '\n' :: (texts.flatMap (fun text => "    ".toList ++
        Quoted.write text.toList ++ ",\n".toList) ++ ']' :: rest) = next at hmore
      have htext : '\n' :: ((text :: texts).flatMap (fun text => "    ".toList ++
          Quoted.write text.toList ++ ",\n".toList) ++ ']' :: rest) =
          '\n' :: ("    ".toList ++ (Quoted.write text.toList ++ ',' :: next)) := by
        simp [← hnext]
      have hfiller : skipFiller false ('\n' :: ("    ".toList ++
          (Quoted.write text.toList ++ ',' :: next))) =
            some (Quoted.write text.toList ++ ',' :: next) := by
        rw [← skipFiller_write]
        simp [skipFiller, Quoted.isSpace]
      have hitem : readValue depth (Quoted.write text.toList ++ ',' :: next) =
          some (.str (String.ofList text.toList), ',' :: next) :=
        readValue_write (by simp) (by simp) text.toList
      rw [htext]
      rw [hwrite, List.cons_append] at hfiller hitem ⊢
      rw [readItems_succ hfiller hclose hitem, skipFiller_cons rfl (by decide) (by decide)]
      simp [hmore]

/-! ## Keys -/

/-- A key that is written without quotes. -/
def IsPlainKey (key : String) : Prop :=
  key ≠ "" ∧ ∀ c ∈ key.toList, isKeyChar c = true

instance : Decidable (IsPlainKey key) :=
  @instDecidableAnd _ _ inferInstance (List.decidableBAll _ _)

theorem keyChar_ne (hc : isKeyChar c = true) :
    Quoted.isSpace c = false ∧ c ≠ '"' ∧ c ≠ '\'' ∧ c ≠ '[' ∧ c ≠ '#' ∧ c ≠ '\n' := by
  have hspace : ∀ d ∈ [' ', '\t', '"', '\'', '[', '#', '\n'], isKeyChar d = false := by
    simp [isKeyChar, isDigit]
  have hne : ∀ d ∈ [' ', '\t', '"', '\'', '[', '#', '\n'], c ≠ d := by
    rintro d hd rfl
    rw [hspace c hd] at hc
    cases hc
  simp only [List.forall_mem_cons] at hne
  obtain ⟨hblank, htab, hdouble, hsingle, hlist, hmark, hbreak, -⟩ := hne
  exact ⟨by simp [Quoted.isSpace, hblank, htab], hdouble, hsingle, hlist, hmark, hbreak⟩

theorem IsPlainKey.cons (hkey : IsPlainKey key) :
    ∃ c tail, key.toList = c :: tail ∧ isKeyChar c = true := by
  obtain ⟨hne, hchars⟩ := hkey
  cases hlist : key.toList with
  | nil => exact absurd (String.toList_eq_nil_iff.mp hlist) hne
  | cons c tail => exact ⟨c, tail, rfl, hchars c (by simp [hlist])⟩

/-- A plain key is read up to what comes after it. -/
theorem readKey_plain {after : List Char} (hkey : IsPlainKey key)
    (hafter : ∀ c ∈ after.head?, isKeyChar c = false) (hskip : skipSpace after = c :: rest)
    (hdot : c ≠ '.') : readKey (count + 1) (key.toList ++ after) = some ([key], c :: rest) := by
  obtain ⟨d, tail, hcons, hd⟩ := hkey.cons
  obtain ⟨hspace, hdouble, hsingle, -⟩ := keyChar_ne hd
  have hstart : skipSpace (key.toList ++ after) = key.toList ++ after := by
    simp [skipSpace, hcons, hspace]
  have htake : (key.toList ++ after).takeWhile isKeyChar = key.toList := by
    rw [List.takeWhile_append_of_pos hkey.2]
    cases after with
    | nil => simp
    | cons e after => simp [hafter e rfl]
  have hdrop : (key.toList ++ after).dropWhile isKeyChar = after := by
    rw [List.dropWhile_append_of_pos hkey.2]
    cases after with
    | nil => rfl
    | cons e after => simp [hafter e rfl]
  have hpart : readKeyPart (key.toList ++ after) = some (key.toList, after) := by
    unfold readKeyPart
    split
    case h_1 heq =>
      rw [hcons] at heq
      exact absurd (List.cons.inj heq).1 hdouble
    case h_2 heq =>
      rw [hcons] at heq
      exact absurd (List.cons.inj heq).1 hsingle
    case h_3 => simp [htake, hdrop, hkey.1]
  rw [readKey, hstart, hpart]
  simp only [hskip]
  split
  case h_1 heq => exact absurd (List.cons.inj heq).1 hdot
  case h_2 => simp

/-! ## Lines -/

/-- `Reads draft text entries`: the text completes what has been read so far to the entries. -/
def Reads (draft : Draft) (text : List Char) (entries : Entries) : Prop :=
  ∀ count, text.length < count → readExpressions count draft text = some entries

theorem reads_nil : Reads draft [] draft.entries := by
  intro count hcount
  obtain ⟨count, rfl⟩ := Nat.exists_eq_add_one_of_ne_zero (Nat.ne_zero_of_lt hcount)
  rfl

theorem reads_break (hreads : Reads draft text entries) : Reads draft ('\n' :: text) entries := by
  intro count hcount
  obtain ⟨count, rfl⟩ := Nat.exists_eq_add_one_of_ne_zero (Nat.ne_zero_of_lt hcount)
  rw [← hreads (count + 1) (by simp at hcount; omega)]
  simp [readExpressions, skipFiller]

/-- A line with one expression leads on to the next line. -/
theorem Reads.step {next : Draft} (hfiller : skipFiller false text = some (c :: body))
    (hread : readExpression draft (c :: body) = some (next, '\n' :: rest))
    (hlength : rest.length < text.length) (hreads : Reads next rest entries) :
    Reads draft text entries := by
  intro count hcount
  obtain ⟨count, rfl⟩ := Nat.exists_eq_add_one_of_ne_zero (Nat.ne_zero_of_lt hcount)
  have hafter : afterLine? ('\n' :: rest) = some rest := rfl
  rw [readExpressions, hfiller]
  simp only [hread, hafter]
  exact hreads count (by omega)

theorem reads_header (hkey : IsPlainKey key)
    (hadd : addHeader false [key] draft.entries = some inner)
    (hreads : Reads ⟨[key], inner⟩ text entries) :
    Reads draft ('[' :: (key.toList ++ ']' :: '\n' :: text)) entries := by
  have hread : readKey maxDepth (key.toList ++ ']' :: '\n' :: text) =
      some ([key], ']' :: '\n' :: text) :=
    readKey_plain hkey (by simp; decide) rfl (by decide)
  have hheader : readHeader (key.toList ++ ']' :: '\n' :: text) =
      some ((false, [key]), '\n' :: text) := by
    obtain ⟨c, tail, hcons, hc⟩ := hkey.cons
    obtain ⟨-, -, -, hlist, -⟩ := keyChar_ne hc
    unfold readHeader
    split
    case h_1 heq =>
      rw [hcons] at heq
      exact absurd (List.cons.inj heq).1 hlist
    case h_2 =>
      rw [hread]
      rfl
  refine Reads.step (skipFiller_cons rfl (by decide) (by decide)) ?_ ?_ hreads
  · simp [readExpression, hheader, hadd]
  · simp
    omega

theorem reads_pair (hkey : IsPlainKey key) (hvalue : Writes value toml)
    (hadd : underHeader (addPair [key] toml) draft.header draft.entries = some inner)
    (hreads : Reads ⟨draft.header, inner⟩ text entries) :
    Reads draft (key.toList ++ (" = ".toList ++ (value ++ '\n' :: text))) entries := by
  obtain ⟨c, tail, hcons, hc⟩ := hkey.cons
  obtain ⟨hspace, -, -, hlist, hmark, hbreak⟩ := keyChar_ne hc
  have hread : readKey maxDepth (key.toList ++ (" = ".toList ++ (value ++ '\n' :: text))) =
      some ([key], '=' :: ' ' :: (value ++ '\n' :: text)) :=
    readKey_plain hkey (by simp; decide) rfl (by decide)
  have hskip : skipSpace (' ' :: (value ++ '\n' :: text)) = value ++ '\n' :: text := by
    obtain ⟨d, more, hvalue'⟩ := List.exists_cons_of_ne_nil hvalue.ne_nil
    have hd : Quoted.isSpace d = false := hvalue.head d (by simp [hvalue'])
    have hblank : Quoted.isSpace ' ' = true := rfl
    simp [skipSpace, hvalue', hd, hblank]
  have hpair : readPair? (readValue maxDepth)
      (key.toList ++ (" = ".toList ++ (value ++ '\n' :: text))) =
        some (([key], toml), '\n' :: text) := by
    simp only [readPair?, hread, hskip, hvalue.read, Option.map_some]
  rw [hcons, List.cons_append] at hpair ⊢
  refine Reads.step (skipFiller_cons hspace hbreak hmark) ?_ ?_ hreads
  · unfold readExpression
    split
    case h_1 heq => exact absurd (List.cons.inj heq).1 hlist
    case h_2 => simp only [hpair, hadd, Option.map_some]
  · simp
    omega

/-! ## Sections -/

/-- A line with a key and a value. -/
structure Line where
  key : String
  value : List Char
  toml : Toml

namespace Line

/-- The characters of a line. -/
def chars (line : Line) : List Char :=
  line.key.toList ++ " = ".toList ++ line.value ++ ['\n']

/-- Whether a line can be read. -/
structure IsRead (line : Line) : Prop where
  key : IsPlainKey line.key
  value : Writes line.value line.toml

/-- The entry that a line makes. -/
def entry (line : Line) : String × Node := (line.key, .value line.toml)

end Line

theorem get?_of_not_mem (hkey : key ∉ entries.map Prod.fst) : Entries.get? key entries = none := by
  induction entries with
  | nil => rfl
  | cons entry entries ih =>
      simp only [List.map_cons, List.mem_cons, not_or] at hkey
      simp [Entries.get?, hkey.1, ih hkey.2]

theorem put_of_not_mem {node : Node} (hkey : key ∉ entries.map Prod.fst) :
    Entries.put key node entries = entries ++ [(key, node)] := by
  induction entries with
  | nil => rfl
  | cons entry entries ih =>
      simp only [List.map_cons, List.mem_cons, not_or] at hkey
      simp [Entries.put, hkey.1, ih hkey.2]

theorem get?_last {node : Node} (hkey : key ∉ before.map Prod.fst) :
    Entries.get? key (before ++ [(key, node)]) = some node := by
  induction before with
  | nil => simp [Entries.get?]
  | cons entry before ih =>
      simp only [List.map_cons, List.mem_cons, not_or] at hkey
      simp [Entries.get?, hkey.1, ih hkey.2]

theorem put_last {old node : Node} (hkey : key ∉ before.map Prod.fst) :
    Entries.put key node (before ++ [(key, old)]) = before ++ [(key, node)] := by
  induction before with
  | nil => simp [Entries.put]
  | cons entry before ih =>
      simp only [List.map_cons, List.mem_cons, not_or] at hkey
      simp [Entries.put, hkey.1, ih hkey.2]

section Sections

variable {header : String}

/-- A new header declares an empty table. -/
theorem addHeader_new (hheader : header ∉ before.map Prod.fst) :
    addHeader false [header] before = some (before ++ [(header, .table .header [])]) := by
  simp [addHeader, underHeader, changeAt, declareTable, get?_of_not_mem hheader,
    put_of_not_mem hheader]

/-- A pair with a new key goes to the end of the last table. -/
theorem addPair_last (hheader : header ∉ before.map Prod.fst) (hkey : key ∉ inner.map Prod.fst) :
    underHeader (addPair [key] toml) [header] (before ++ [(header, .table .header inner)]) =
      some (before ++ [(header, .table .header (inner ++ [(key, .value toml)]))]) := by
  simp [underHeader, changeAt, addPair, addValue, get?_last hheader, get?_of_not_mem hkey,
    put_of_not_mem hkey, put_last hheader]

/-- The lines of a section are read in order. -/
theorem reads_lines {lines : List Line} (hheader : header ∉ before.map Prod.fst)
    (hlines : ∀ line ∈ lines, line.IsRead) (hkeys : (lines.map Line.key).Nodup)
    (hinner : ∀ line ∈ lines, line.key ∉ inner.map Prod.fst)
    (hreads : Reads ⟨[header], before ++ [(header, .table .header (inner ++ lines.map Line.entry))]⟩
      text entries) :
    Reads ⟨[header], before ++ [(header, .table .header inner)]⟩
      (lines.flatMap Line.chars ++ text) entries := by
  induction lines generalizing inner with
  | nil => simpa using hreads
  | cons line lines ih =>
      simp only [List.forall_mem_cons] at hlines hinner
      simp only [List.map_cons, List.nodup_cons] at hkeys
      have hmore : Reads ⟨[header], before ++ [(header, .table .header (inner ++ [line.entry]))]⟩
          (lines.flatMap Line.chars ++ text) entries := by
        refine ih hlines.2 hkeys.2 ?_ (by simpa using hreads)
        intro other hother
        have hne : other.key ≠ line.key := fun heq =>
          hkeys.1 (heq ▸ List.mem_map_of_mem hother)
        simpa [Line.entry, hne] using hinner.2 other hother
      have hpair : Reads ⟨[header], before ++ [(header, .table .header inner)]⟩
          (line.key.toList ++ (" = ".toList ++
            (line.value ++ '\n' :: (lines.flatMap Line.chars ++ text)))) entries :=
        reads_pair hlines.1.key hlines.1.value (addPair_last hheader hinner.1) hmore
      simpa [Line.chars] using hpair

/-- A section is read: its header and its lines. -/
theorem reads_section {lines : List Line} (hkey : IsPlainKey header)
    (hheader : header ∉ draft.entries.map Prod.fst) (hlines : ∀ line ∈ lines, line.IsRead)
    (hkeys : (lines.map Line.key).Nodup)
    (hreads : Reads ⟨[header], draft.entries ++ [(header, .table .header (lines.map Line.entry))]⟩
      text entries) :
    Reads draft ('[' :: (header.toList ++ ']' :: '\n' :: (lines.flatMap Line.chars ++ text)))
      entries :=
  reads_header hkey (addHeader_new hheader)
    (reads_lines hheader hlines hkeys (by simp) (by simpa using hreads))

end Sections

/-! ## Documents -/

theorem unifyBreaks_of_not_mem (hreturn : '\r' ∉ text) : unifyBreaks text = text := by
  induction text with
  | nil => rfl
  | cons c text ih =>
      simp only [List.mem_cons, not_or] at hreturn
      unfold unifyBreaks
      split
      case h_1 heq => exact absurd (List.cons.inj heq).1.symm hreturn.1
      case h_2 heq =>
        cases heq
        rw [ih hreturn.2]
      case h_3 heq => cases heq

/-- A text without carriage returns that starts with a header is read line by line. -/
theorem read?_of_reads (hreturn : '\r' ∉ '[' :: text) (hreads : Reads {} ('[' :: text) entries) :
    read? (String.ofList ('[' :: text)) = some (entriesToToml entries) := by
  have hmark : dropMark ('[' :: text) = '[' :: text := rfl
  simp only [read?, String.toList_ofList, hmark, unifyBreaks_of_not_mem hreturn,
    hreads _ (Nat.lt_succ_self _), Option.map_some]

end GoAtlas.Toml
