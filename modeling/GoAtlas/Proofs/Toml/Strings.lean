import GoAtlas.Toml.Quoted
import Mathlib.Tactic.SplitIfs

/-!
# Written strings are read back

`Quoted.write` picks one of four styles for a text.  Whatever it picks, the text is read back
from it (`read_write`), as long as no other quote follows.

In the two styles between tripled quotes the text may end in quotes of its own.  How many
there can be is bounded by the style: three in a row are written with an escape or not at all.
-/

namespace GoAtlas.Toml.Quoted

variable {c d quote : Char} {text rest raw : List Char}

/-! ## Escapes -/

/-- The characters that complete an escape, and the character denoted. -/
inductive Denotes : Escape → List Char → Char → Prop where
  | last {escape : Escape} {d c : Char} (hnext : escape.next d = .denotes c) :
      Denotes escape [d] c
  | more {escape longer : Escape} {d c : Char} {tail : List Char}
      (hnext : escape.next d = .goesOn longer) (htail : Denotes longer tail c) :
      Denotes escape (d :: tail) c

/-- The digits of a character whose number has two of them. -/
theorem denotes_digits : ∀ n < 0x80, Denotes .start
    ['u', '0', '0', if n / 16 < 10 then Char.ofNat (0x30 + n / 16) else Char.ofNat (0x37 + n / 16),
      if n % 16 < 10 then Char.ofNat (0x30 + n % 16) else Char.ofNat (0x37 + n % 16)]
    (Char.ofNat n) := by
  intro n hn
  have hdigits : ∀ n < 0x80,
      (Escape.digits 1 0).next (if n / 16 < 10 then Char.ofNat (0x30 + n / 16)
        else Char.ofNat (0x37 + n / 16)) = .goesOn (.digits 0 (n / 16)) ∧
      (Escape.digits 0 (n / 16)).next (if n % 16 < 10 then Char.ofNat (0x30 + n % 16)
        else Char.ofNat (0x37 + n % 16)) = .denotes (Char.ofNat n) := by
    decide
  obtain ⟨hhigh, hlow⟩ := hdigits n hn
  exact .more rfl (.more rfl (.more rfl (.more hhigh (.last hlow))))

/-- A control character has a small number. -/
theorem toNat_lt_of_not_isPlain (hplain : isPlain c = false) : c.toNat < 0x80 := by
  simp only [isPlain, Bool.or_eq_false_iff, Bool.and_eq_false_iff, decide_eq_false_iff_not,
    bne_eq_false_iff_eq] at hplain
  omega

/-- An escape has one letter, or two digits for a control character. -/
theorem escape_cases (hescape : needsEscape c = true) :
    (∃ d, escape c = ['\\', d] ∧ d ≠ '\r' ∧ Escape.start.next d = .denotes c) ∨
      (c.toNat < 0x80 ∧ escape c = ['\\', 'u', '0', '0',
        if c.toNat / 16 < 10 then Char.ofNat (0x30 + c.toNat / 16)
          else Char.ofNat (0x37 + c.toNat / 16),
        if c.toNat % 16 < 10 then Char.ofNat (0x30 + c.toNat % 16)
          else Char.ofNat (0x37 + c.toNat % 16)]) := by
  by_cases htab : c = '\t'
  · subst htab
    exact .inl ⟨'t', rfl, by decide, rfl⟩
  by_cases hslash : c = '\\'
  · subst hslash
    exact .inl ⟨'\\', rfl, by decide, rfl⟩
  have hplain : isPlain c = false := by simpa [needsEscape, htab, hslash] using hescape
  unfold escape
  split
  case h_7 => exact .inr ⟨toNat_lt_of_not_isPlain hplain, rfl⟩
  all_goals exact .inl ⟨_, rfl, by decide, rfl⟩

/-- An escape denotes the character that it was written for. -/
theorem escape_denotes (hescape : needsEscape c = true) :
    ∃ tail, escape c = '\\' :: tail ∧ Denotes .start tail c := by
  rcases escape_cases hescape with ⟨d, hletter, -, hnext⟩ | ⟨hsmall, hdigits⟩
  · exact ⟨_, hletter, .last hnext⟩
  · have hdenotes := denotes_digits c.toNat hsmall
    rw [Char.ofNat_toNat] at hdenotes
    exact ⟨_, hdigits, hdenotes⟩

theorem readBasic_denotes {escape : Escape} (hdenotes : Denotes escape raw c) :
    readBasic (some escape) (raw ++ rest) = prepend c (readBasic none rest) := by
  induction hdenotes with
  | last hnext => simp [readBasic, hnext]
  | more hnext _ ih => simpa [readBasic, hnext] using ih

theorem readBasicLines_denotes {escape : Escape} (hdenotes : Denotes escape raw c) :
    readBasicLines (.escape escape) (raw ++ rest) = prepend c (readBasicLines .plain rest) := by
  induction hdenotes with
  | last hnext => simp [readBasicLines, hnext]
  | more hnext _ ih => simpa [readBasicLines, hnext] using ih

/-- What is written as it is, is plain and no backslash. -/
theorem plain_of_not_needsEscape (hescape : needsEscape c = false) :
    isPlain c = true ∧ c ≠ '\\' := by
  simp only [needsEscape, Bool.or_eq_false_iff, beq_eq_false_iff_ne, Bool.not_eq_false'] at hescape
  exact ⟨hescape.1.1, hescape.2⟩

/-! ## Strings on one line -/

theorem readBasic_escaped (text rest : List Char) (run : Nat) :
    readBasic none (escaped 0 false run text ++ '"' :: rest) = some (text, rest) := by
  induction text generalizing run with
  | nil => simp [escaped, readBasic]
  | cons c text ih =>
      by_cases hquote : c = '"'
      · subst hquote
        have hnext : Escape.start.next '"' = .denotes '"' := rfl
        simp [escaped, readBasic, hnext, ih, prepend]
      · cases hescape : needsEscape c with
        | true =>
            obtain ⟨tail, htail, hdenotes⟩ := escape_denotes hescape
            simp only [escaped, if_neg hquote, hescape, Bool.false_and, Bool.not_false,
              Bool.and_true, if_true, htail, List.cons_append, List.append_assoc, readBasic,
              Char.reduceEq, if_false]
            rw [readBasic_denotes hdenotes, ih]
            rfl
        | false =>
            obtain ⟨hplain, hslash⟩ := plain_of_not_needsEscape hescape
            simp [escaped, readBasic, hquote, hescape, hslash, hplain, ih, prepend]

theorem readLiteral_append (hplain : ∀ c ∈ text, isPlain c = true) (hquote : '\'' ∉ text) :
    readLiteral (text ++ '\'' :: rest) = some (text, rest) := by
  induction text with
  | nil => simp [readLiteral]
  | cons c text ih =>
      simp only [List.mem_cons, not_or, forall_eq_or_imp] at hplain hquote
      simp [readLiteral, Ne.symm hquote.1, hplain.1, ih hplain.2 hquote.2, prepend]

/-! ## Strings on several lines -/

/-- Three quotes close a string, if no other one follows. -/
theorem close?_nil (hrest : rest.head? ≠ some quote) :
    close? quote (quote :: quote :: rest) = some ([], rest) := by
  cases rest with
  | nil => simp [close?, expect?]
  | cons d rest =>
      have hne : quote ≠ d := fun heq => hrest (by simp [heq])
      simp [close?, expect?, hne]

/-- A quote before the closing ones belongs to the string. -/
theorem close?_one (hrest : rest.head? ≠ some quote) :
    close? quote (quote :: quote :: quote :: rest) = some ([quote], rest) := by
  cases rest with
  | nil => simp [close?, expect?]
  | cons d rest =>
      have hne : quote ≠ d := fun heq => hrest (by simp [heq])
      simp [close?, expect?, hne]

/-- So do two of them. -/
theorem close?_two : close? quote (quote :: quote :: quote :: quote :: rest) =
    some ([quote, quote], rest) := by
  simp [close?, expect?]

/-- Fewer than three quotes in a row close nothing. -/
theorem close?_cons_of_ne (hne : d ≠ quote) : close? quote (d :: rest) = none := by
  simp [close?, expect?, Ne.symm hne]

theorem close?_cons_cons_of_ne (hne : d ≠ quote) : close? quote (c :: d :: rest) = none := by
  simp [close?, expect?, Ne.symm hne]

theorem readBasicLines_quote (hclose : close? '"' rest = none) :
    readBasicLines .plain ('"' :: rest) = prepend '"' (readBasicLines .plain rest) := by
  simp [readBasicLines, hclose]

/-- A quote that closes a string in tripled quotes is followed by quotes only. -/
theorem close?_append {closed : List Char × List Char}
    (hraw : ∀ d e tail, raw = d :: e :: tail → d ≠ quote ∨ e ≠ quote)
    (hrest : rest.head? ≠ some quote)
    (hclose : close? quote (raw ++ quote :: quote :: quote :: rest) = some closed) :
    closed = (quote :: raw, rest) ∧ ∀ d ∈ raw, d = quote := by
  match raw with
  | [] =>
      rw [List.nil_append, close?_one hrest] at hclose
      exact ⟨(Option.some.inj hclose).symm, by simp⟩
  | [d] =>
      by_cases hd : d = quote
      · subst hd
        rw [List.cons_append, List.nil_append, close?_two] at hclose
        exact ⟨(Option.some.inj hclose).symm, by simp⟩
      · rw [List.cons_append, close?_cons_of_ne hd] at hclose
        cases hclose
  | d :: e :: tail =>
      rcases hraw d e tail rfl with hd | he
      · rw [List.cons_append, close?_cons_of_ne hd] at hclose
        cases hclose
      · rw [List.cons_append, List.cons_append, close?_cons_cons_of_ne he] at hclose
        cases hclose

/-- Where an escaped text has a quote in front, so has the text. -/
theorem escaped_quote {most run : Nat} {breaks : Bool}
    (hraw : escaped most breaks run text = '"' :: raw) :
    run < most ∧ ∃ tail, text = '"' :: tail ∧ raw = escaped most breaks (run + 1) tail := by
  cases text with
  | nil => cases hraw
  | cons c text =>
      simp only [escaped] at hraw
      split at hraw
      case isTrue hquote =>
        split at hraw
        case isTrue hrun =>
          exact ⟨hrun, text, by rw [hquote], (List.cons.inj hraw).2.symm⟩
        case isFalse => exact absurd (List.cons.inj hraw).1 (by decide)
      case isFalse hquote =>
        split at hraw
        case isTrue hescape =>
          obtain ⟨tail, htail, -⟩ := escape_denotes (Bool.and_eq_true_iff.mp hescape).1
          rw [htail] at hraw
          exact absurd (List.cons.inj hraw).1 (by decide)
        case isFalse => exact absurd (List.cons.inj hraw).1 hquote

/-- An escaped text of quotes only is the text itself. -/
theorem escaped_eq_of_quotes {most : Nat} {breaks : Bool} (text : List Char) (run : Nat)
    (hquotes : ∀ c ∈ escaped most breaks run text, c = '"') :
    escaped most breaks run text = text := by
  induction text generalizing run with
  | nil => rfl
  | cons c text ih =>
      obtain ⟨d, raw, hraw⟩ : ∃ d raw, escaped most breaks run (c :: text) = d :: raw := by
        simp only [escaped]
        split_ifs with hquote hrun hescape
        · exact ⟨_, _, rfl⟩
        · exact ⟨_, _, rfl⟩
        · obtain ⟨tail, htail, -⟩ := escape_denotes (Bool.and_eq_true_iff.mp hescape).1
          exact ⟨_, _, by rw [htail]; rfl⟩
        · exact ⟨_, _, rfl⟩
      have hd : d = '"' := hquotes d (by simp [hraw])
      subst hd
      obtain ⟨-, tail, htext, rfl⟩ := escaped_quote hraw
      cases htext
      rw [hraw, ih _ fun c hc => hquotes c (by simp [hraw, hc])]

/-- In an escaped text there are at most two quotes in a row. -/
theorem escaped_two {run : Nat} {tail : List Char}
    (hraw : escaped 2 true (run + 1) text = c :: d :: tail) : c ≠ '"' ∨ d ≠ '"' := by
  refine Decidable.not_and_iff_or_not.mp ?_
  rintro ⟨rfl, rfl⟩
  obtain ⟨-, _, -, hnext⟩ := escaped_quote hraw
  obtain ⟨hrun, -⟩ := escaped_quote hnext.symm
  omega

theorem readBasicLines_escaped (hrest : rest.head? ≠ some '"') (text : List Char) (run : Nat) :
    readBasicLines .plain (escaped 2 true run text ++ '"' :: '"' :: '"' :: rest) =
      some (text, rest) := by
  induction text generalizing run with
  | nil => simp [escaped, readBasicLines, close?_nil hrest]
  | cons c text ih =>
      by_cases hquote : c = '"'
      · subst hquote
        by_cases hrun : run < 2
        · simp only [escaped, if_true, if_pos hrun, List.cons_append]
          cases hclose :
              close? '"' (escaped 2 true (run + 1) text ++ '"' :: '"' :: '"' :: rest) with
          | none =>
              rw [readBasicLines_quote hclose, ih]
              rfl
          | some closed =>
              obtain ⟨rfl, hquotes⟩ := close?_append (fun _ _ _ => escaped_two) hrest hclose
              rw [escaped_eq_of_quotes _ _ hquotes] at hclose ⊢
              simp [readBasicLines, hclose]
        · have hnext : Escape.start.next '"' = .denotes '"' := rfl
          simp [escaped, hrun, readBasicLines, hnext, ih, prepend]
      · cases hescape : needsEscape c && !(true && c == '\n') with
        | true =>
            obtain ⟨tail, htail, hdenotes⟩ := escape_denotes (Bool.and_eq_true_iff.mp hescape).1
            simp only [escaped, if_neg hquote, hescape, if_true, htail, List.cons_append,
              List.append_assoc, readBasicLines, Char.reduceEq, if_false, reduceCtorEq, false_and]
            rw [readBasicLines_denotes hdenotes, ih]
            rfl
        | false =>
            have hchar : c ≠ '\\' ∧ (isPlain c = true ∨ c = '\n') := by
              by_cases hbreak : c = '\n'
              · subst hbreak
                exact ⟨by decide, .inr rfl⟩
              · have hnot : needsEscape c = false := by simpa [hbreak] using hescape
                obtain ⟨hplain, hslash⟩ := plain_of_not_needsEscape hnot
                exact ⟨hslash, .inl hplain⟩
            simp only [escaped, if_neg hquote, hescape]
            simp [readBasicLines, hquote, hchar.1, hchar.2, ih, prepend]

theorem hasTripled_cons (htripled : hasTripled quote (c :: text) = false) :
    hasTripled quote text = false := by
  match text with
  | [] => rfl
  | [_] => rfl
  | d :: e :: tail => exact (Bool.or_eq_false_iff.mp htripled).2

theorem hasTripled_two (htripled : hasTripled quote (quote :: c :: d :: text) = false) :
    c ≠ quote ∨ d ≠ quote := by
  refine Decidable.not_and_iff_or_not.mp ?_
  rintro ⟨rfl, rfl⟩
  simp [hasTripled] at htripled

theorem readLiteralLines_append (hrest : rest.head? ≠ some '\'')
    (hplain : ∀ c ∈ text, isPlain c = true ∨ c = '\n') (htripled : hasTripled '\'' text = false) :
    readLiteralLines (text ++ '\'' :: '\'' :: '\'' :: rest) = some (text, rest) := by
  induction text with
  | nil => simp [readLiteralLines, close?_nil hrest]
  | cons c text ih =>
      simp only [List.mem_cons, forall_eq_or_imp] at hplain
      have hread := ih hplain.2 (hasTripled_cons htripled)
      by_cases hquote : c = '\''
      · subst hquote
        cases hclose : close? '\'' (text ++ '\'' :: '\'' :: '\'' :: rest) with
        | none => simp [readLiteralLines, hclose, hread, prepend]
        | some closed =>
            have hraw : ∀ d e tail, text = d :: e :: tail → d ≠ '\'' ∨ e ≠ '\'' := by
              rintro d e tail rfl
              exact hasTripled_two htripled
            obtain ⟨rfl, -⟩ := close?_append hraw hrest hclose
            simp [readLiteralLines, hclose]
      · simp [readLiteralLines, hquote, hplain.1, hread, prepend]

/-! ## Any style -/

theorem dropBreak_openBreak (hhead : ∀ c ∈ raw.head?, c = '\n' → '\n' ∈ text) :
    dropBreak (openBreak text ++ raw) = raw := by
  unfold openBreak
  split
  case isTrue => rfl
  case isFalse hnone =>
    cases raw with
    | nil => rfl
    | cons c raw =>
        have hc : c ≠ '\n' := fun heq => hnone (by simpa using hhead c rfl heq)
        unfold dropBreak
        split
        case h_1 heq => exact absurd (List.cons.inj heq).1 hc
        case h_2 => rfl

/-- The first character of an escaped text is no line break, unless the text has one. -/
theorem escaped_head {most run : Nat} {breaks : Bool}
    (hraw : escaped most breaks run text = c :: raw) (hbreak : c = '\n') : '\n' ∈ text := by
  subst hbreak
  cases text with
  | nil => cases hraw
  | cons d text =>
      simp only [escaped] at hraw
      split_ifs at hraw with hquote hrun hescape
      · exact absurd (hquote ▸ (List.cons.inj hraw).1) (by decide)
      · exact absurd (List.cons.inj hraw).1 (by decide)
      · obtain ⟨tail, htail, -⟩ := escape_denotes (Bool.and_eq_true_iff.mp hescape).1
        rw [htail] at hraw
        exact absurd (List.cons.inj hraw).1 (by decide)
      · simp [(List.cons.inj hraw).1]

/-- What is known of a text from the style that is chosen for it. -/
def Style.Fits : Style → List Char → Prop
  | .literal, text => text ≠ [] ∧ (∀ c ∈ text, isPlain c = true) ∧ '\'' ∉ text
  | .literalLines, text =>
      (∀ c ∈ text, isPlain c = true ∨ c = '\n') ∧ hasTripled '\'' text = false
  | _, _ => True

theorem Style.of_fits (text : List Char) : (Style.of text).Fits text := by
  have hlines : (text.any fun c => !isPlain c && c != '\n') = false →
      ∀ c ∈ text, isPlain c = true ∨ c = '\n' := by
    intro hnone c hc
    simpa [Decidable.or_iff_not_imp_left] using List.any_eq_false.mp hnone c hc
  unfold Style.of
  extract_lets hasControl hasBreak
  split_ifs with hbasic hliteral hbasicLines hliteralLines hbreak
  · trivial
  · simp only [Bool.and_eq_true, Bool.not_eq_true'] at hliteral
    obtain ⟨⟨hcontrol, hquote⟩, hbreak⟩ := hliteral
    refine ⟨?_, fun c hc => ?_, by simpa using hquote⟩
    · rintro rfl
      exact hbasic rfl
    · rcases hlines hcontrol c hc with hplain | rfl
      · exact hplain
      · exact absurd (List.contains_iff_mem.mpr hc) (by simp [hasBreak] at hbreak; simp [hbreak])
  · trivial
  · simp only [Bool.and_eq_true, Bool.not_eq_true'] at hliteralLines
    exact ⟨hlines hliteralLines.1, hliteralLines.2⟩
  · trivial
  · trivial

/-- Two characters of which the second is no quote open a string on one line. -/
theorem read_basic (hraw : ∀ tail, raw ≠ '"' :: '"' :: tail) :
    read ('"' :: raw) = readBasic none raw := by
  unfold read
  split
  case h_1 heq => exact absurd (List.cons.inj heq).2 (hraw _)
  case h_2 heq => cases heq
  case h_3 heq => rw [(List.cons.inj heq).2]
  case h_4 heq => cases heq
  case h_5 _ _ hnot _ => exact absurd rfl (hnot _)

theorem read_literal (hraw : ∀ tail, raw ≠ '\'' :: '\'' :: tail) :
    read ('\'' :: raw) = readLiteral raw := by
  unfold read
  split
  case h_1 heq => cases heq
  case h_2 heq => exact absurd (List.cons.inj heq).2 (hraw _)
  case h_3 heq => cases heq
  case h_4 heq => rw [(List.cons.inj heq).2]
  case h_5 _ hnot => exact absurd rfl (hnot _)

/-- A text is read back from the string that it is written as, if no quote follows. -/
theorem read_write (hdouble : rest.head? ≠ some '"') (hsingle : rest.head? ≠ some '\'')
    (text : List Char) : read (write text ++ rest) = some (text, rest) := by
  have hfits := Style.of_fits text
  unfold write
  cases hstyle : Style.of text with
  | basic =>
      rw [writeIn, List.append_assoc, List.cons_append, List.singleton_append, read_basic,
        readBasic_escaped]
      intro tail heq
      cases hraw : escaped 0 false 0 text with
      | nil =>
          rw [hraw, List.nil_append, List.cons.injEq] at heq
          exact hdouble (by rw [heq.2]; rfl)
      | cons c raw =>
          rw [hraw, List.cons_append, List.cons.injEq] at heq
          obtain ⟨hrun, -⟩ := escaped_quote (hraw.trans (by rw [heq.1]))
          exact absurd hrun (Nat.not_lt_zero _)
  | literal =>
      rw [hstyle] at hfits
      obtain ⟨hne, hplain, hquote⟩ := hfits
      rw [writeIn, List.append_assoc, List.cons_append, List.singleton_append, read_literal,
        readLiteral_append hplain hquote]
      intro tail heq
      cases text with
      | nil => exact hne rfl
      | cons c text => exact hquote (by simp [(List.cons.inj heq).1])
  | basicLines =>
      have hopen :
          dropBreak (openBreak text ++ (escaped 2 true 0 text ++ '"' :: '"' :: '"' :: rest)) =
            escaped 2 true 0 text ++ '"' :: '"' :: '"' :: rest := by
        refine dropBreak_openBreak fun c hc hbreak => ?_
        cases hraw : escaped 2 true 0 text with
        | nil =>
            rw [hraw] at hc
            cases hc
            cases hbreak
        | cons d raw =>
            rw [hraw] at hc
            cases hc
            exact escaped_head hraw hbreak
      simp only [writeIn, List.append_assoc, List.cons_append, List.nil_append, read, hopen,
        readBasicLines_escaped hdouble]
  | literalLines =>
      rw [hstyle] at hfits
      have hopen : dropBreak (openBreak text ++ (text ++ '\'' :: '\'' :: '\'' :: rest)) =
          text ++ '\'' :: '\'' :: '\'' :: rest := by
        refine dropBreak_openBreak fun c hc hbreak => ?_
        cases text with
        | nil =>
            cases hc
            cases hbreak
        | cons d text =>
            cases hc
            exact hbreak ▸ List.mem_cons_self ..
      simp only [writeIn, List.append_assoc, List.cons_append, List.nil_append, read, hopen,
        readLiteralLines_append hsingle hfits.1 hfits.2]

/-! ## Carriage returns -/

/-- An escape is written without carriage returns. -/
theorem not_mem_escape (hescape : needsEscape c = true) : '\r' ∉ escape c := by
  have hhex : ∀ n < 0x80,
      '\r' ≠ (if n < 10 then Char.ofNat (0x30 + n) else Char.ofNat (0x37 + n)) := by
    decide
  rcases escape_cases hescape with ⟨d, hletter, hd, -⟩ | ⟨hsmall, hdigits⟩
  · rw [hletter]
    simp [Ne.symm hd]
  · have hhigh := hhex (c.toNat / 16) (by omega)
    have hlow := hhex (c.toNat % 16) (by omega)
    rw [hdigits]
    simp [hhigh, hlow]

theorem not_mem_escaped {most : Nat} {breaks : Bool} (text : List Char) (run : Nat) :
    '\r' ∉ escaped most breaks run text := by
  induction text generalizing run with
  | nil => simp [escaped]
  | cons c text ih =>
      simp only [escaped]
      split_ifs with hquote hrun hescape
      · simp [hquote, ih]
      · simp [ih]
      · have hnot := not_mem_escape (Bool.and_eq_true_iff.mp hescape).1
        simp [hnot, ih]
      · have hc : c ≠ '\r' := by
          rintro rfl
          exact hescape (by simp [needsEscape, isPlain])
        simp [Ne.symm hc, ih]

/-- A string is written without carriage returns. -/
theorem not_mem_write (text : List Char) : '\r' ∉ write text := by
  have hfits := Style.of_fits text
  have hopen : '\r' ∉ openBreak text := by
    unfold openBreak
    split <;> decide
  unfold write
  cases hstyle : Style.of text with
  | basic => simp [writeIn, not_mem_escaped]
  | literal =>
      rw [hstyle] at hfits
      have hnot : '\r' ∉ text := fun hin => absurd (hfits.2.1 _ hin) (by decide)
      simp [writeIn, hnot]
  | basicLines => simp [writeIn, not_mem_escaped, hopen]
  | literalLines =>
      rw [hstyle] at hfits
      have hnot : '\r' ∉ text := fun hin => absurd (hfits.1 _ hin) (by decide)
      simp [writeIn, hnot, hopen]

/-- A string starts with a quote. -/
theorem write_head (text : List Char) :
    ∃ quote tail, write text = quote :: tail ∧ (quote = '"' ∨ quote = '\'') := by
  unfold write
  cases Style.of text <;> exact ⟨_, _, rfl, by decide⟩

end GoAtlas.Toml.Quoted
