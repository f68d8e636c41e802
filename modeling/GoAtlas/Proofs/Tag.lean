import GoAtlas.Proofs.Literal
import GoAtlas.Proofs.Text.Splitting
import GoAtlas.Tag

/-!
# What tags say

The text of a tag is made of pairs with spaces before them (`written`) and something after the
last one that is no pair.  It is cut into just these pairs (`pairs_written`): a key ends at its
colon, and a quoted value at the first quote that no backslash stands before, so there is no
other way to find a pair at the beginning of a text (`takePair_eq_some_iff`).

What the tag then says is said of all pairs at once (`Says`): the values under a key are those of
the pairs with this key whose quoted value can be read, one after another, and the other pairs are
listed as malformed.
-/

namespace GoAtlas

/-! ## The grammar -/

/-- A key of a tag: one or more characters above the space, and neither colon, double quote nor
delete. -/
def IsTagKey (key : List Char) : Prop :=
  key ≠ [] ∧ ∀ c ∈ key, ' ' < c ∧ c ≠ ':' ∧ c ≠ '"' ∧ c ≠ '\x7f'

/-- What can stand between the quotes of a value: characters other than quotes and backslashes,
and backslashes with any one character after each. -/
inductive IsTagBody : List Char → Prop where
  | nil : IsTagBody []
  | plain {c : Char} {body : List Char} : c ≠ '"' → c ≠ '\\' → IsTagBody body →
      IsTagBody (c :: body)
  | escaped {c : Char} {body : List Char} : IsTagBody body → IsTagBody ('\\' :: c :: body)

namespace TagPair

/-- The text of a pair. -/
def chars (pair : TagPair) : List Char := pair.key.toList ++ ':' :: pair.quoted.toList

/-- A pair is well formed: a key and a body between double quotes. -/
def IsProper (pair : TagPair) : Prop :=
  IsTagKey pair.key.toList ∧
    ∃ body, IsTagBody body ∧ pair.quoted.toList = '"' :: (body ++ ['"'])

end TagPair

/-- Whether a text begins with a pair. -/
def StartsPair (text : List Char) : Prop :=
  ∃ pair after, TagPair.IsProper pair ∧ text = pair.chars ++ after

namespace Tags

/-- The text of some pairs, each with a number of spaces before it. -/
def written (entries : List (Nat × TagPair)) : List Char :=
  entries.flatMap fun entry => List.replicate entry.1 ' ' ++ entry.2.chars

variable {text after body key rest remainder : List Char} {pair : TagPair} {c : Char}
  {entries : List (Nat × TagPair)} {pairs : List TagPair} {tags : Tags} {literal : String}

/-! ## Finding a pair -/

theorem isKeyChar_iff : isKeyChar c = true ↔ ' ' < c ∧ c ≠ ':' ∧ c ≠ '"' ∧ c ≠ '\x7f' := by
  simp [isKeyChar, and_assoc]

theorem takeQuoted_plain (hquote : c ≠ '"') (hslash : c ≠ '\\') :
    takeQuoted (c :: text) =
      (takeQuoted text).map fun (quoted, after) => (c :: quoted, after) := by
  rw [takeQuoted.eq_4]
  · exact hquote
  · exact fun _ _ heq => absurd heq hslash

/-- A quoted value ends at the first quote that no backslash stands before. -/
theorem takeQuoted_eq_some_iff {quoted : List Char} :
    takeQuoted text = some (quoted, after) ↔
      ∃ body, IsTagBody body ∧ quoted = body ++ ['"'] ∧ text = body ++ '"' :: after := by
  constructor
  · intro htake
    induction text using takeQuoted.induct generalizing quoted with
    | case1 => cases htake
    | case2 rest =>
        cases htake
        exact ⟨[], .nil, rfl, rfl⟩
    | case3 c rest ih =>
        obtain ⟨⟨more, _⟩, hmore, heq⟩ := Option.map_eq_some_iff.mp htake
        cases heq
        obtain ⟨body, hbody, rfl, rfl⟩ := ih hmore
        exact ⟨'\\' :: c :: body, .escaped hbody, rfl, rfl⟩
    | case4 c rest hquote hunit ih =>
        rw [takeQuoted.eq_4 c rest hquote hunit] at htake
        obtain ⟨⟨more, _⟩, hmore, heq⟩ := Option.map_eq_some_iff.mp htake
        cases heq
        obtain ⟨body, hbody, rfl, rfl⟩ := ih hmore
        have hslash : c ≠ '\\' := by
          rintro rfl
          -- A backslash would take the first character of what follows, and there is one.
          obtain ⟨d, more, hcons⟩ : ∃ d more, body ++ '"' :: after = d :: more :=
            List.exists_cons_of_ne_nil (by simp)
          exact hunit d more rfl hcons
        exact ⟨c :: body, .plain hquote hslash hbody, rfl, rfl⟩
  · rintro ⟨body, hbody, rfl, rfl⟩
    induction hbody with
    | nil => rfl
    | @plain c body hquote hslash _ ih =>
        rw [List.cons_append, takeQuoted_plain hquote hslash, ih]
        rfl
    | @escaped c body _ ih =>
        rw [List.cons_append, List.cons_append, takeQuoted, ih]
        rfl

/-- A pair is found where one stands after the spaces, and no other one can be found there. -/
theorem takePair_eq_some_iff :
    takePair text = some (pair, after) ↔
      pair.IsProper ∧ text.dropWhile (· == ' ') = pair.chars ++ after := by
  constructor
  · intro htake
    unfold takePair at htake
    simp only at htake
    split at htake
    case isTrue => cases htake
    case isFalse hkey =>
      split at htake
      case h_1 rest hrest =>
        obtain ⟨⟨quoted, _⟩, hquoted, heq⟩ := Option.map_eq_some_iff.mp htake
        cases heq
        obtain ⟨body, hbody, rfl, rfl⟩ := takeQuoted_eq_some_iff.mp hquoted
        have hchars : ∀ c ∈ (text.dropWhile (· == ' ')).takeWhile isKeyChar, isKeyChar c = true :=
          List.all_eq_true.mp List.all_takeWhile
        refine ⟨⟨⟨?_, ?_⟩, body, hbody, String.toList_ofList⟩, ?_⟩
        · simpa using hkey
        · simpa [isKeyChar_iff] using hchars
        · calc text.dropWhile (· == ' ')
            _ = (text.dropWhile (· == ' ')).takeWhile isKeyChar ++
                (text.dropWhile (· == ' ')).dropWhile isKeyChar :=
              List.takeWhile_append_dropWhile.symm
            _ = _ := by simp [hrest, TagPair.chars]
      case h_2 => cases htake
  · rintro ⟨⟨⟨hne, hkey⟩, body, hbody, hquoted⟩, htext⟩
    have hchars : pair.chars ++ after =
        pair.key.toList ++ (':' :: '"' :: (body ++ '"' :: after)) := by
      simp [TagPair.chars, hquoted]
    -- The colon is no character of a key, so the key ends right before it.
    have hend : ∀ c ∈ (':' :: '"' :: (body ++ '"' :: after)).head?, isKeyChar c = false := by
      simp [isKeyChar]
    have hkey : ∀ c ∈ pair.key.toList, isKeyChar c = true :=
      fun c hc => isKeyChar_iff.mpr (hkey c hc)
    have hpair : (⟨String.ofList pair.key.toList,
        String.ofList ('"' :: (body ++ ['"']))⟩ : TagPair) = pair := by
      rw [← hquoted, String.ofList_toList, String.ofList_toList]
    unfold takePair
    simp only [htext, hchars, takeWhile_append hkey hend, dropWhile_append hkey hend]
    rw [if_neg (by simpa using hne), takeQuoted_eq_some_iff.mpr ⟨body, hbody, rfl, rfl⟩]
    exact congrArg (fun pair => some (pair, after)) hpair

/-! ## Finding all pairs -/

theorem takePair_eq_none_iff : takePair text = none ↔ ¬ StartsPair (text.dropWhile (· == ' ')) := by
  rw [Option.eq_none_iff_forall_ne_some]
  constructor
  · rintro hnone ⟨pair, after, hproper, htext⟩
    exact hnone (pair, after) (takePair_eq_some_iff.mpr ⟨hproper, htext⟩)
  · rintro hnot ⟨pair, after⟩ htake
    obtain ⟨hproper, htext⟩ := takePair_eq_some_iff.mp htake
    exact hnot ⟨pair, after, hproper, htext⟩

theorem pairs_of_none (hnone : takePair text = none) : Tags.pairs text = [] := by
  unfold Tags.pairs
  split
  case h_1 => rfl
  case h_2 hsome => rw [hnone] at hsome; cases hsome

theorem pairs_of_some (hsome : takePair text = some (pair, after)) :
    Tags.pairs text = pair :: Tags.pairs after := by
  rw [Tags.pairs]
  split
  case h_1 hnone => rw [hsome] at hnone; cases hnone
  case h_2 heq => rw [hsome] at heq; cases heq; rfl

/-- No space stands at the beginning of a pair. -/
theorem head?_chars (hproper : pair.IsProper) :
    ∀ c ∈ (pair.chars ++ after).head?, (c == ' ') = false := by
  obtain ⟨⟨hne, hkey⟩, -⟩ := hproper
  obtain ⟨first, key, hcons⟩ := List.exists_cons_of_ne_nil hne
  have hfirst : ' ' < first := (hkey first (by simp [hcons])).1
  have hspace : first ≠ ' ' := by
    rintro rfl
    exact absurd hfirst (by decide)
  simp [TagPair.chars, hcons, hspace]

/-- A text is cut into the pairs that it is made of. -/
theorem pairs_written (hproper : ∀ entry ∈ entries, entry.2.IsProper)
    (hend : ¬ StartsPair (remainder.dropWhile (· == ' '))) :
    Tags.pairs (written entries ++ remainder) = entries.map Prod.snd := by
  induction entries with
  | nil => exact pairs_of_none (takePair_eq_none_iff.mpr hend)
  | cons entry entries ih =>
      obtain ⟨spaces, pair⟩ := entry
      obtain ⟨hpair, hproper⟩ := List.forall_mem_cons.mp hproper
      have hspaces : ∀ c ∈ List.replicate spaces ' ', (c == ' ') = true := by simp
      have htext : written ((spaces, pair) :: entries) ++ remainder =
          List.replicate spaces ' ' ++ (pair.chars ++ (written entries ++ remainder)) := by
        simp [written]
      -- Spaces are dropped up to the key, which begins with no space itself.
      have htake : takePair (written ((spaces, pair) :: entries) ++ remainder) =
          some (pair, written entries ++ remainder) := by
        rw [takePair_eq_some_iff, htext, dropWhile_append hspaces (head?_chars hpair)]
        exact ⟨hpair, rfl⟩
      rw [pairs_of_some htake, ih hproper, List.map_cons]

/-! ## What the pairs say -/

/-- A piece of a value, and what is left of it without the spaces at its ends. -/
def IsTrimmed (cut : List Char) (piece : String) : Prop :=
  ∃ before after, cut = List.replicate before ' ' ++ (piece.toList ++ List.replicate after ' ') ∧
    piece.toList.head? ≠ some ' ' ∧ piece.toList.getLast? ≠ some ' '

/-- The texts between the commas of a value, without the spaces at their ends. -/
def ArePieces (value : String) (pieces : List String) : Prop :=
  ∃ cuts, value.toList = [','].intercalate cuts ∧ cuts ≠ [] ∧ (∀ cut ∈ cuts, ',' ∉ cut) ∧
    List.Forall₂ IsTrimmed cuts pieces

/-- The readable values that are written for a key. -/
def valuesFor (key : String) (pairs : List TagPair) : List String :=
  pairs.filterMap fun pair =>
    if pair.key = key then (Literal.unquote pair.quoted).toOption else none

/-- The pairs whose value cannot be read. -/
def refused (pairs : List TagPair) : List MalformedTag :=
  pairs.filterMap fun pair =>
    match Literal.unquote pair.quoted with
    | .ok _ => none
    | .error reason => some ⟨pair.key, pair.quoted, reason⟩

/-- What tags say, given the pairs that they are made of. -/
structure Says (pairs : List TagPair) (tags : Tags) : Prop where
  /-- A key for which no readable value is written is not there. -/
  absent : ∀ key, valuesFor key pairs = [] → tags.values.get? key = none
  /-- Any other key has the pieces of the values written for it, one after another. -/
  present : ∀ key, valuesFor key pairs ≠ [] → ∃ pieces,
    List.Forall₂ ArePieces (valuesFor key pairs) pieces ∧
      tags.values.get? key = some pieces.flatten
  /-- The other pairs are listed as malformed. -/
  malformed : tags.malformed = refused pairs

theorem isTrimmed_trimWhile (cut : List Char) :
    IsTrimmed cut (String.ofList (trimWhile (· == ' ') cut)) := by
  obtain ⟨front, back, hcut, hfront, hback, hhead, hlast⟩ := exists_trimWhile (· == ' ') cut
  have hspaces : ∀ {spaces : List Char}, (∀ c ∈ spaces, (c == ' ') = true) →
      spaces = List.replicate spaces.length ' ' := fun hall =>
    List.eq_replicate_of_mem fun c hc => beq_iff_eq.mp (hall c hc)
  refine ⟨front.length, back.length, ?_, ?_, ?_⟩
  · rw [String.toList_ofList, ← hspaces hfront, ← hspaces hback]
    exact hcut
  · intro hspace
    rw [String.toList_ofList] at hspace
    exact absurd (hhead ' ' hspace) (by decide)
  · intro hspace
    rw [String.toList_ofList] at hspace
    exact absurd (hlast ' ' hspace) (by decide)

theorem arePieces_pieces (value : String) : ArePieces value (pieces value) := by
  refine ⟨splitWhere (· == ',') value.toList, (intercalate_splitWhere ',' _).symm,
    splitWhere_ne_nil _ _, fun cut hcut hcomma => ?_, ?_⟩
  · exact absurd (not_of_mem_splitWhere hcut ',' hcomma) (by decide)
  · rw [pieces, List.forall₂_map_right_iff]
    exact List.forall₂_same.mpr fun cut _ => isTrimmed_trimWhile cut

theorem malformed_add : (tags.add pair).malformed = tags.malformed ++ refused [pair] := by
  unfold add refused
  cases hread : Literal.unquote pair.quoted with
  | ok value => simp [hread]
  | error reason => simp [hread]

/-- A pair lengthens the values under its key if its own can be read. -/
theorem get?_add {key : String} :
    (tags.add pair).values.get? key =
      if valuesFor key [pair] = [] then tags.values.get? key
      else some ((tags.values.get? key).getD [] ++ (valuesFor key [pair]).flatMap pieces) := by
  unfold add valuesFor
  cases hread : Literal.unquote pair.quoted with
  | error reason => simp [hread, Except.toOption]
  | ok value =>
      by_cases hkey : pair.key = key
      · subst hkey
        simp [hread, Except.toOption]
      · simp [hkey, Ne.symm hkey]

theorem valuesFor_cons (key : String) (pair : TagPair) (pairs : List TagPair) :
    valuesFor key (pair :: pairs) = valuesFor key [pair] ++ valuesFor key pairs := by
  rw [← List.singleton_append, valuesFor, List.filterMap_append]
  rfl

theorem refused_cons (pair : TagPair) (pairs : List TagPair) :
    refused (pair :: pairs) = refused [pair] ++ refused pairs := by
  rw [← List.singleton_append, refused, List.filterMap_append]
  rfl

theorem malformed_foldl_add :
    (pairs.foldl add tags).malformed = tags.malformed ++ refused pairs := by
  induction pairs generalizing tags with
  | nil => exact (List.append_nil _).symm
  | cons pair pairs ih =>
      rw [List.foldl_cons, ih, malformed_add, refused_cons pair pairs, List.append_assoc]

theorem get?_foldl_add {key : String} :
    (pairs.foldl add tags).values.get? key =
      if valuesFor key pairs = [] then tags.values.get? key
      else some ((tags.values.get? key).getD [] ++ (valuesFor key pairs).flatMap pieces) := by
  induction pairs generalizing tags with
  | nil => rfl
  | cons pair pairs ih =>
      rw [List.foldl_cons, ih, get?_add, valuesFor_cons key pair pairs]
      -- What the first pair gives stands before what the others give.
      by_cases hpair : valuesFor key [pair] = []
      · simp [hpair]
      · by_cases hpairs : valuesFor key pairs = []
        · simp [hpair, hpairs]
        · simp [hpair, hpairs]

theorem says_ofPairs (pairs : List TagPair) : Says pairs (ofPairs pairs) := by
  constructor
  · intro key hnone
    rw [ofPairs, get?_foldl_add, if_pos hnone]
    rfl
  · intro key hsome
    refine ⟨(valuesFor key pairs).map pieces, ?_, ?_⟩
    · rw [List.forall₂_map_right_iff]
      exact List.forall₂_same.mpr fun value _ => arePieces_pieces value
    · rw [ofPairs, get?_foldl_add, if_neg hsome, List.flatMap_def]
      rfl
  · rw [ofPairs, malformed_foldl_add]
    rfl

/-- Tags say what the pairs say that the text of their literal is made of, and a literal that
cannot be read is refused unless it is a lone character. -/
theorem read_exact :
    (∀ entries remainder, (∀ entry ∈ entries, entry.2.IsProper) →
      ¬ StartsPair (remainder.dropWhile (· == ' ')) →
      Literal.Denotes literal.toList (written entries ++ remainder) →
      ∃ tags, read literal = .ok tags ∧ Says (entries.map Prod.snd) tags) ∧
    (¬ Literal.IsLone literal.toList → (∀ value, Literal.unquote literal ≠ .ok value) →
      ∃ cause, cause ≠ .loneCharacter ∧ Literal.unquote literal = .error (.literal cause literal) ∧
        read literal = .error (.literal cause literal)) := by
  constructor
  · intro entries remainder hproper hend hdenotes
    have hread : read literal = .ok (ofPairs (entries.map Prod.snd)) := by
      rw [read, Literal.unquote_of_denotes hdenotes]
      simp only [String.toList_ofList, pairs_written hproper hend]
    exact ⟨_, hread, says_ofPairs _⟩
  · intro hlone hrefused
    obtain ⟨cause, hcause, hunquote⟩ := Literal.unquote_refused hlone hrefused
    exact ⟨cause, hcause, hunquote, by rw [read, hunquote]⟩

/-- Two readable values for one key with an unreadable one for another key between them. -/
def mixed : List (Nat × TagPair) :=
  [(0, ⟨"json", "\"a, b\""⟩), (2, ⟨"bad", "\"\\q\""⟩), (1, ⟨"json", "\"é\""⟩)]

theorem read_exact_mixed :
    (∃ tags, read "`json:\"a, b\"  bad:\"\\q\" json:\"é\" none`" = .ok tags ∧
      Says (mixed.map Prod.snd) tags) ∧
    ∃ cause, cause ≠ .loneCharacter ∧ Literal.unquote "`json" = .error (.literal cause "`json") ∧
      read "`json" = .error (.literal cause "`json") := by
  have htake : ∀ entry ∈ mixed, takePair entry.2.chars = some (entry.2, []) := by decide +kernel
  have hproper : ∀ entry ∈ mixed, entry.2.IsProper := fun entry hentry =>
    (takePair_eq_some_iff.mp (htake entry hentry)).1
  have hend : ¬ StartsPair (" none".toList.dropWhile (· == ' ')) :=
    takePair_eq_none_iff.mp (by decide +kernel)
  have hdenotes : Literal.Denotes "`json:\"a, b\"  bad:\"\\q\" json:\"é\" none`".toList
      (written mixed ++ " none".toList) :=
    (Literal.read_eq_ok_iff_denotes (.inr (by decide +kernel))).mp (by decide +kernel)
  refine ⟨read_exact.1 mixed _ hproper hend hdenotes, read_exact.2 ?_ ?_⟩
  · rintro ⟨c, hc, -⟩
    simpa using congrArg List.length hc
  · intro value
    have hunquote : Literal.unquote "`json" = .error (.literal .unterminated "`json") := by
      decide +kernel
    simp [hunquote]

/-- A lone character is no literal, and it is not refused. -/
theorem read_lone : (∀ value, Literal.unquote "é" ≠ .ok value) ∧
    ¬ ∃ cause, cause ≠ .loneCharacter ∧ read "é" = .error (.literal cause "é") := by
  have hunquote : Literal.unquote "é" = .error (.literal .loneCharacter "é") := by decide +kernel
  refine ⟨fun value => by simp [hunquote], ?_⟩
  rintro ⟨cause, hcause, hread⟩
  rw [read, hunquote] at hread
  cases hread
  exact hcause rfl

end Tags

end GoAtlas
