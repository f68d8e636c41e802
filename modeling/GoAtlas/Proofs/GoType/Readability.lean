import GoAtlas.GoType.Basic
import GoAtlas.Proofs.Source.Tokens

/-!
# Types are told apart by their texts

Two types whose names are proper have the same Go text only if they are the same type
(`render_inj`).

Most constructors write no closing mark, so where a type ends has to be told from what follows
it.  Inside another type, and at the end of the text, that is one of a few marks (`Follows`), and
no type goes on with any of these.  The proof reads a text from the left: its first word and the
character after it tell which constructor it was written by (`formOf_chars`), and then the parts
are read off one after another (`IsReadOff`).  The words that types begin with must not be names,
or `chan` with an element would begin like a type called `chan`.
-/

namespace GoAtlas.GoType

open Source

variable {type other key value elem : GoType} {types others fields args results : List GoType}
  {name package : String} {rest rest' close close' text : List Char}

/-! ## Proper names -/

/-- The words that a type can begin with without being a name. -/
def formWords : List String := ["chan", "func", "interface", "map", "struct"]

/-- Whether a text can be a name: one or more letters, digits and underscores, which are not one
of the words that have a meaning in types. -/
def isName (name : String) : Bool :=
  !name.toList.isEmpty && name.toList.all isWordChar && !formWords.contains name

mutual

/-- Whether all names in a type are proper. -/
def isNamed : GoType → Bool
  | .primitive name => isName name
  | .array elem => isNamed elem
  | .map key value => isNamed key && isNamed value
  | .struct fields => areNamed fields
  | .interface methods => areNamed methods
  | .pointer target => isNamed target
  | .selector package name => isName package && isName name
  | .func args results => areNamed args && areNamed results
  | .channel elem _ => isNamed elem
  | .ellipsis elem => isNamed elem

/-- Whether all names in some types are proper. -/
def areNamed : List GoType → Bool
  | [] => true
  | type :: types => isNamed type && areNamed types

end

theorem isName_word (hname : isName name = true) :
    name.toList ≠ [] ∧ name.toList.all isWordChar = true ∧ name ∉ formWords := by
  simpa [isName, and_assoc] using hname

/-! ## Texts of types

The equations that are needed below, with the parts of each text in the order in which they are
read. -/

theorem chars_selector :
    (selector package name).chars = package.toList ++ '.' :: name.toList := by
  show package.toList ++ ['.'] ++ name.toList = _
  rw [List.append_assoc, List.singleton_append]

theorem chars_map : (map key value).chars = "map[".toList ++ (key.chars ++ ']' :: value.chars) := by
  show "map[".toList ++ key.chars ++ [']'] ++ value.chars = _
  rw [List.append_assoc, List.append_assoc, List.singleton_append]

theorem chars_func : (func args results).chars =
    "func(".toList ++ (joinWith ", ".toList (charsAll args) ++
      ')' :: resultList (charsAll results)) := by
  show "func(".toList ++ joinWith ", ".toList (charsAll args) ++ [')'] ++
    resultList (charsAll results) = _
  rw [List.append_assoc, List.append_assoc, List.singleton_append]

/-- Members of a list after the first one, each with the separator before it. -/
def moreChars (mark : Char) (types : List GoType) : List Char :=
  (charsAll types).flatMap fun text => mark :: ' ' :: text

theorem joinWith_charsAll (mark : Char) (type : GoType) (types : List GoType) :
    joinWith [mark, ' '] (charsAll (type :: types)) = type.chars ++ moreChars mark types := by
  induction types generalizing type with
  | nil => exact (List.append_nil _).symm
  | cons next types ih =>
      show type.chars ++ [mark, ' '] ++ joinWith [mark, ' '] (charsAll (next :: types)) =
        type.chars ++ mark :: ' ' :: (next.chars ++ moreChars mark types)
      rw [ih next, List.append_assoc]
      rfl

/-- A list of members in braces that is not empty. -/
theorem braced_charsAll (keyword : List Char) (type : GoType) (types : List GoType) :
    braced keyword (charsAll (type :: types)) =
      keyword ++ ('\x7b' :: ' ' :: (type.chars ++ (moreChars ';' types ++ [' ', '\x7d']))) := by
  show keyword ++ ['\x7b', ' '] ++ joinWith [';', ' '] (charsAll (type :: types)) ++
    [' ', '\x7d'] = _
  rw [joinWith_charsAll]
  simp

/-! ## What follows a type -/

/-- What can stand after a type: nothing, the mark that separates or closes the members of a
list, or a closing brace after a blank. -/
inductive Follows : List Char → Prop where
  | nil : Follows []
  | mark {c : Char} {rest : List Char} : c ∈ [']', ')', ';', ','] → Follows (c :: rest)
  | brace {rest : List Char} : Follows (' ' :: '\x7d' :: rest)

theorem Follows.endsWord (hrest : Follows rest) : endsWord rest = true := by
  cases hrest with
  | nil => rfl
  | mark hc =>
      have hmarks : ∀ c ∈ [']', ')', ';', ','], isWordChar c = false := by decide
      simp [Source.endsWord, hmarks _ hc]
  | brace => rfl

/-- A word in front of what cannot go on it. -/
theorem word_append_inj {word word' : List Char} (hword : word.all isWordChar = true)
    (hword' : word'.all isWordChar = true) (hrest : endsWord rest = true)
    (hrest' : endsWord rest' = true) (htext : word ++ rest = word' ++ rest') :
    word = word' ∧ rest = rest' := by
  constructor
  · rw [← takeWhile_word hword hrest, htext, takeWhile_word hword' hrest']
  · rw [← dropWhile_word hword hrest, htext, dropWhile_word hword' hrest']

/-- A type does not begin with a mark that can stand where a type is missing. -/
theorem chars_begin (hnamed : type.isNamed = true) :
    ∃ c more, type.chars = c :: more ∧ c ∉ ['(', ')', '\x7d'] := by
  have hmarks : ∀ c ∈ ['(', ')', '\x7d'], isWordChar c = false := by decide
  have hfirst : ∀ name, isName name = true →
      ∃ c more, name.toList = c :: more ∧ c ∉ ['(', ')', '\x7d'] := by
    intro name hname
    obtain ⟨hne, hword, -⟩ := isName_word hname
    obtain ⟨c, more, hchars⟩ := List.exists_cons_of_ne_nil hne
    rw [hchars, List.all_cons, Bool.and_eq_true] at hword
    refine ⟨c, more, hchars, fun hmem => ?_⟩
    rw [hmarks c hmem] at hword
    exact Bool.false_ne_true hword.1
  cases type with
  | primitive name => exact hfirst name hnamed
  | selector package name =>
      rw [isNamed, Bool.and_eq_true] at hnamed
      obtain ⟨c, more, hchars, hc⟩ := hfirst package hnamed.1
      refine ⟨c, more ++ '.' :: name.toList, ?_, hc⟩
      rw [chars_selector, hchars, List.cons_append]
  | array elem => exact ⟨'[', _, rfl, by decide⟩
  | map key value => exact ⟨'m', _, rfl, by decide⟩
  | struct fields => cases fields <;> exact ⟨'s', _, rfl, by decide⟩
  | interface methods => cases methods <;> exact ⟨'i', _, rfl, by decide⟩
  | pointer target => exact ⟨'*', _, rfl, by decide⟩
  | func args results => exact ⟨'f', _, rfl, by decide⟩
  | channel elem dir => cases dir <;> exact ⟨_, _, rfl, by decide⟩
  | ellipsis elem => exact ⟨'.', _, rfl, by decide⟩

/-! ## The form of a type -/

/-- The ways to write a type. -/
inductive Form where
  | name
  | selector
  | array
  | map
  | struct
  | interface
  | pointer
  | func
  | channel (dir : ChanDir)
  | ellipsis
deriving DecidableEq, Repr

def form : GoType → Form
  | .primitive _ => .name
  | .array _ => .array
  | .map _ _ => .map
  | .struct _ => .struct
  | .interface _ => .interface
  | .pointer _ => .pointer
  | .selector _ _ => .selector
  | .func _ _ => .func
  | .channel _ dir => .channel dir
  | .ellipsis _ => .ellipsis

/-- The form of the type that a text begins with, told from its first word and the character
after that. -/
def formOf (text : List Char) : Form :=
  let word := String.ofList (text.takeWhile isWordChar)
  let next := (text.dropWhile isWordChar).head?
  if word = "" then
    if next = some '[' then .array
    else if next = some '*' then .pointer
    else if next = some '.' then .ellipsis
    else .channel .recv
  else if word = "map" then .map
  else if word = "struct" then .struct
  else if word = "interface" then .interface
  else if word = "func" then .func
  else if word = "chan" then
    if next = some '<' then .channel .send else .channel .both
  else if next = some '.' then .selector
  else .name

/-- The form of a text that begins with a name. -/
theorem formOf_name (hname : isName name = true) (hrest : endsWord rest = true) :
    formOf (name.toList ++ rest) = if rest.head? = some '.' then .selector else .name := by
  obtain ⟨hne, hword, hkeyword⟩ := isName_word hname
  have hempty : name ≠ "" := by
    rintro rfl
    exact hne rfl
  simp only [formWords, List.mem_cons, List.not_mem_nil, or_false, not_or] at hkeyword
  simp only [formOf, takeWhile_word hword hrest, dropWhile_word hword hrest, String.ofList_toList,
    hempty, hkeyword, if_false]

theorem formOf_chars (hnamed : type.isNamed = true) (hrest : Follows rest) :
    formOf (type.chars ++ rest) = type.form := by
  cases type with
  | primitive name =>
      show formOf (name.toList ++ rest) = .name
      rw [formOf_name hnamed hrest.endsWord, if_neg]
      cases hrest with
      | nil => simp
      | mark hc =>
          rintro hdot
          cases hdot
          exact absurd hc (by decide)
      | brace => simp
  | selector package name =>
      rw [isNamed, Bool.and_eq_true] at hnamed
      rw [chars_selector, List.append_assoc, List.cons_append, formOf_name hnamed.1 rfl]
      rfl
  | struct fields => cases fields <;> rfl
  | interface methods => cases methods <;> rfl
  | channel elem dir => cases dir <;> rfl
  | array | map | pointer | func | ellipsis => rfl

/-- Texts that are the same begin with types of the same form. -/
theorem form_eq (htype : type.isNamed = true) (hother : other.isNamed = true)
    (hrest : Follows rest) (hrest' : Follows rest')
    (htext : type.chars ++ rest = other.chars ++ rest') : type.form = other.form := by
  rw [← formOf_chars htype hrest, htext, formOf_chars hother hrest']

/-! ## Reading off one type -/

/-- Whether a type can be told from each text that begins with its own and goes on with something
that follows a type. -/
def IsReadOff (type : GoType) : Prop :=
  ∀ ⦃other : GoType⦄ ⦃rest rest' : List Char⦄, other.isNamed = true → Follows rest →
    Follows rest' → type.chars ++ rest = other.chars ++ rest' → type = other ∧ rest = rest'

theorem isReadOff_primitive (hnamed : (primitive name).isNamed = true) :
    (primitive name).IsReadOff := by
  intro other rest rest' hother hrest hrest' htext
  have hform := form_eq hnamed hother hrest hrest' htext
  cases other with
  | primitive name' =>
      obtain ⟨hnames, hrests⟩ := word_append_inj (isName_word hnamed).2.1
        (isName_word hother).2.1 hrest.endsWord hrest'.endsWord htext
      exact ⟨congrArg primitive (String.toList_injective hnames), hrests⟩
  | _ => cases hform

theorem isReadOff_selector (hnamed : (selector package name).isNamed = true) :
    (selector package name).IsReadOff := by
  intro other rest rest' hother hrest hrest' htext
  have hform := form_eq hnamed hother hrest hrest' htext
  cases other with
  | selector package' name' =>
      rw [isNamed, Bool.and_eq_true] at hnamed hother
      rw [chars_selector, chars_selector, List.append_assoc, List.append_assoc] at htext
      obtain ⟨hpackages, hdot⟩ := word_append_inj (isName_word hnamed.1).2.1
        (isName_word hother.1).2.1 rfl rfl htext
      obtain ⟨hnames, hrests⟩ := word_append_inj (isName_word hnamed.2).2.1
        (isName_word hother.2).2.1 hrest.endsWord hrest'.endsWord (List.cons.inj hdot).2
      rw [String.toList_injective hpackages, String.toList_injective hnames]
      exact ⟨rfl, hrests⟩
  | _ => cases hform

/-- A type that is written as a fixed text and its element. -/
theorem isReadOff_front (wrap : GoType → GoType) (front : List Char)
    (hchars : ∀ elem, (wrap elem).chars = front ++ elem.chars)
    (hnames : ∀ elem, (wrap elem).isNamed = elem.isNamed)
    (hwrap : ∀ other elem, (wrap elem).form = other.form → ∃ elem', other = wrap elem')
    (hnamed : (wrap elem).isNamed = true) (helem : elem.IsReadOff) : (wrap elem).IsReadOff := by
  intro other rest rest' hother hrest hrest' htext
  obtain ⟨elem', rfl⟩ := hwrap other elem (form_eq hnamed hother hrest hrest' htext)
  rw [hnames] at hother
  rw [hchars, hchars, List.append_assoc, List.append_assoc, List.append_cancel_left_eq] at htext
  obtain ⟨rfl, hrests⟩ := helem hother hrest hrest' htext
  exact ⟨rfl, hrests⟩

theorem isReadOff_map (hnamed : (map key value).isNamed = true) (hkey : key.IsReadOff)
    (hvalue : value.IsReadOff) : (map key value).IsReadOff := by
  intro other rest rest' hother hrest hrest' htext
  have hform := form_eq hnamed hother hrest hrest' htext
  cases other with
  | map key' value' =>
      rw [isNamed, Bool.and_eq_true] at hother
      have hbracket : ∀ text, Follows (']' :: text) := fun _ => .mark (by decide)
      simp only [chars_map, List.append_assoc, List.append_cancel_left_eq,
        List.cons_append] at htext
      obtain ⟨rfl, hvalues⟩ := hkey hother.1 (hbracket _) (hbracket _) htext
      obtain ⟨rfl, hrests⟩ := hvalue hother.2 hrest hrest' (List.cons.inj hvalues).2
      exact ⟨rfl, hrests⟩
  | _ => cases hform

/-! ## Reading off lists -/

theorem areNamed_cons :
    areNamed (type :: types) = true ↔ type.isNamed = true ∧ areNamed types = true := by
  rw [areNamed, Bool.and_eq_true]

/-- What follows the members of a list, with the last members before it. -/
theorem follows_moreChars {mark : Char} (hmark : mark ∈ [';', ',']) (hclose : Follows close)
    (types : List GoType) : Follows (moreChars mark types ++ close) := by
  have hmarks : ∀ c ∈ [';', ','], c ∈ [']', ')', ';', ','] := by decide
  cases types with
  | nil => exact hclose
  | cons type types => exact .mark (hmarks mark hmark)

/-- Members are read off a list as long as the separator comes before the next one. -/
theorem moreChars_inj {mark : Char} (hmark : mark ∈ [';', ','])
    (htypes : ∀ type ∈ types, type.IsReadOff) (hothers : areNamed others = true)
    (hclose : Follows close) (hclose' : Follows close') (hend : close.head? ≠ some mark)
    (hend' : close'.head? ≠ some mark)
    (htext : moreChars mark types ++ close = moreChars mark others ++ close') :
    types = others ∧ close = close' := by
  induction types generalizing others with
  | nil =>
      cases others with
      | nil => exact ⟨rfl, htext⟩
      | cons other others =>
          rw [show close = _ from htext] at hend
          exact absurd rfl hend
  | cons type types ih =>
      cases others with
      | nil =>
          rw [show close' = _ from htext.symm] at hend'
          exact absurd rfl hend'
      | cons other others =>
          rw [areNamed_cons] at hothers
          rw [List.forall_mem_cons] at htypes
          have hmembers : type.chars ++ (moreChars mark types ++ close) =
              other.chars ++ (moreChars mark others ++ close') := by
            simpa [moreChars, charsAll] using htext
          obtain ⟨rfl, hmore⟩ := htypes.1 hothers.1 (follows_moreChars hmark hclose types)
            (follows_moreChars hmark hclose' others) hmembers
          obtain ⟨rfl, hcloses⟩ := ih htypes.2 hothers.2 hmore
          exact ⟨rfl, hcloses⟩

/-- A list with a first member. -/
theorem listed_inj {mark : Char} (hmark : mark ∈ [';', ','])
    (htypes : ∀ member ∈ type :: types, member.IsReadOff)
    (hothers : areNamed (other :: others) = true) (hclose : Follows close)
    (hclose' : Follows close') (hend : close.head? ≠ some mark) (hend' : close'.head? ≠ some mark)
    (htext : type.chars ++ (moreChars mark types ++ close) =
      other.chars ++ (moreChars mark others ++ close')) :
    type :: types = other :: others ∧ close = close' := by
  rw [areNamed_cons] at hothers
  rw [List.forall_mem_cons] at htypes
  obtain ⟨rfl, hmore⟩ := htypes.1 hothers.1 (follows_moreChars hmark hclose types)
    (follows_moreChars hmark hclose' others) htext
  obtain ⟨rfl, hcloses⟩ := moreChars_inj hmark htypes.2 hothers.2 hclose hclose' hend hend' hmore
  exact ⟨rfl, hcloses⟩

/-- A type that is written as a keyword and its members in braces. -/
theorem isReadOff_braced (wrap : List GoType → GoType) {keyword : List Char}
    (hchars : ∀ members, (wrap members).chars = braced keyword (charsAll members))
    (hnames : ∀ members, (wrap members).isNamed = areNamed members)
    (hwrap : ∀ other members, (wrap members).form = other.form → ∃ members', other = wrap members')
    (hnamed : (wrap types).isNamed = true) (htypes : ∀ type ∈ types, type.IsReadOff) :
    (wrap types).IsReadOff := by
  intro other rest rest' hother hrest hrest' htext
  obtain ⟨others, rfl⟩ := hwrap other types (form_eq hnamed hother hrest hrest' htext)
  rw [hnames] at hother
  rw [hchars, hchars] at htext
  cases types with
  | nil =>
      cases others with
      | nil => exact ⟨rfl, List.append_cancel_left htext⟩
      | cons other others =>
          rw [braced_charsAll, List.append_assoc] at htext
          simp [braced, charsAll] at htext
  | cons type types =>
      cases others with
      | nil =>
          rw [braced_charsAll, List.append_assoc] at htext
          simp [braced, charsAll] at htext
      | cons other others =>
          have hmembers : type.chars ++ (moreChars ';' types ++ ' ' :: '\x7d' :: rest) =
              other.chars ++ (moreChars ';' others ++ ' ' :: '\x7d' :: rest') := by
            simpa [braced_charsAll] using htext
          obtain ⟨hmembers, hbraces⟩ :=
            listed_inj (by decide) htypes hother .brace .brace (by simp) (by simp) hmembers
          exact ⟨congrArg wrap hmembers, (List.cons.inj (List.cons.inj hbraces).2).2⟩

/-- Arguments are read off up to the closing parenthesis. -/
theorem arguments_inj (hnamed : areNamed args = true) (hargs : ∀ arg ∈ args, arg.IsReadOff)
    (hothers : areNamed others = true)
    (htext : joinWith [',', ' '] (charsAll args) ++ ')' :: rest =
      joinWith [',', ' '] (charsAll others) ++ ')' :: rest') :
    args = others ∧ rest = rest' := by
  have hparen : ∀ text, Follows (')' :: text) := fun _ => .mark (by decide)
  -- Without arguments the parenthesis closes at once, and no type begins with it.
  have hbegin : ∀ {type : GoType}, type.isNamed = true →
      ∀ back text, ')' :: text ≠ type.chars ++ back := by
    intro type htype back text htext
    obtain ⟨c, more, hchars, hc⟩ := chars_begin htype
    rw [hchars, List.cons_append, List.cons.injEq] at htext
    rw [← htext.1] at hc
    exact hc (by decide)
  cases args with
  | nil =>
      cases others with
      | nil => exact ⟨rfl, (List.cons.inj htext).2⟩
      | cons other others =>
          rw [joinWith_charsAll, List.append_assoc] at htext
          exact absurd htext (hbegin (areNamed_cons.mp hothers).1 _ _)
  | cons arg args =>
      cases others with
      | nil =>
          rw [joinWith_charsAll, List.append_assoc] at htext
          exact absurd htext.symm (hbegin (areNamed_cons.mp hnamed).1 _ _)
      | cons other others =>
          rw [joinWith_charsAll, joinWith_charsAll, List.append_assoc, List.append_assoc] at htext
          obtain ⟨hmembers, hparens⟩ := listed_inj (by decide) hargs hothers (hparen _) (hparen _)
            (by simp) (by simp) htext
          exact ⟨hmembers, (List.cons.inj hparens).2⟩

/-! ## Reading off results -/

/-- The ways to write the results of a function. -/
inductive ResultForm where
  | none
  | bare
  | listed
deriving DecidableEq, Repr

/-- The form of the results that stand before something that follows a type. -/
def resultFormOf : List Char → ResultForm
  | ' ' :: '(' :: _ => .listed
  | ' ' :: '\x7d' :: _ => .none
  | ' ' :: _ => .bare
  | _ => .none

def resultForm : List GoType → ResultForm
  | [] => .none
  | [_] => .bare
  | _ => .listed

theorem resultFormOf_results (hnamed : areNamed results = true) (hrest : Follows rest) :
    resultFormOf (resultList (charsAll results) ++ rest) = resultForm results := by
  match results with
  | [] =>
      cases hrest with
      | nil => rfl
      | mark hc =>
          simp only [List.mem_cons, List.not_mem_nil, or_false] at hc
          rcases hc with rfl | rfl | rfl | rfl <;> rfl
      | brace => rfl
  | [single] =>
      obtain ⟨c, more, hchars, hc⟩ := chars_begin (areNamed_cons.mp hnamed).1
      show resultFormOf (' ' :: (single.chars ++ rest)) = .bare
      simp only [List.mem_cons, List.not_mem_nil, or_false, not_or] at hc
      rw [hchars, List.cons_append, resultFormOf]
      · simp [hc.1]
      · simp [hc.2.2]
  | first :: second :: more => rfl

/-- Results are read off up to what follows the type of the function. -/
theorem results_inj (hnamed : areNamed results = true)
    (hresults : ∀ result ∈ results, result.IsReadOff) (hothers : areNamed others = true)
    (hrest : Follows rest) (hrest' : Follows rest')
    (htext : resultList (charsAll results) ++ rest = resultList (charsAll others) ++ rest') :
    results = others ∧ rest = rest' := by
  have hform : resultForm results = resultForm others := by
    rw [← resultFormOf_results hnamed hrest, htext, resultFormOf_results hothers hrest']
  match results, others with
  | [], [] => exact ⟨rfl, htext⟩
  | [result], [other] =>
      rw [areNamed_cons] at hothers
      have htexts : result.chars ++ rest = other.chars ++ rest' := (List.cons.inj htext).2
      obtain ⟨rfl, hrests⟩ := hresults result (List.mem_singleton_self _) hothers.1 hrest hrest'
        htexts
      exact ⟨rfl, hrests⟩
  | first :: second :: results, first' :: second' :: others =>
      have hparen : ∀ text, Follows (')' :: text) := fun _ => .mark (by decide)
      have hlisted : ∀ (first second : GoType) types text,
          resultList (charsAll (first :: second :: types)) ++ text =
            ' ' :: '(' :: (first.chars ++ (moreChars ',' (second :: types) ++ ')' :: text)) := by
        intro first second types text
        show [' ', '('] ++ joinWith [',', ' '] (charsAll (first :: second :: types)) ++ [')'] ++
          text = _
        rw [joinWith_charsAll]
        simp
      rw [hlisted, hlisted] at htext
      obtain ⟨hmembers, hparens⟩ := listed_inj (by decide) hresults hothers (hparen _) (hparen _)
        (by simp) (by simp) (List.cons.inj (List.cons.inj htext).2).2
      exact ⟨hmembers, (List.cons.inj hparens).2⟩
  | [], [_] | [], _ :: _ :: _ | [_], [] | [_], _ :: _ :: _ | _ :: _ :: _, []
  | _ :: _ :: _, [_] => cases hform

theorem isReadOff_func (hnamed : (func args results).isNamed = true)
    (hargs : ∀ arg ∈ args, arg.IsReadOff) (hresults : ∀ result ∈ results, result.IsReadOff) :
    (func args results).IsReadOff := by
  intro other rest rest' hother hrest hrest' htext
  have hform := form_eq hnamed hother hrest hrest' htext
  cases other with
  | func args' results' =>
      rw [isNamed, Bool.and_eq_true] at hnamed hother
      simp only [chars_func, List.append_assoc, List.append_cancel_left_eq,
        List.cons_append] at htext
      obtain ⟨rfl, htail⟩ := arguments_inj hnamed.1 hargs hother.1 htext
      obtain ⟨rfl, hrests⟩ := results_inj hnamed.2 hresults hother.2 hrest hrest' htail
      exact ⟨rfl, hrests⟩
  | _ => cases hform

/-! ## All types -/

mutual

/-- Types with proper names are read off, whatever stands in them. -/
theorem isReadOff : ∀ type : GoType, type.isNamed = true → type.IsReadOff
  | .primitive _, hnamed => isReadOff_primitive hnamed
  | .selector _ _, hnamed => isReadOff_selector hnamed
  | .array elem, hnamed => by
      refine isReadOff_front array "[]".toList (fun _ => rfl) (fun _ => rfl) ?_ hnamed
        (isReadOff elem hnamed)
      intro other _ hform
      cases other with
      | array elem' => exact ⟨elem', rfl⟩
      | _ => cases hform
  | .pointer target, hnamed => by
      refine isReadOff_front pointer ['*'] (fun _ => rfl) (fun _ => rfl) ?_ hnamed
        (isReadOff target hnamed)
      intro other _ hform
      cases other with
      | pointer target' => exact ⟨target', rfl⟩
      | _ => cases hform
  | .ellipsis elem, hnamed => by
      refine isReadOff_front ellipsis "...".toList (fun _ => rfl) (fun _ => rfl) ?_ hnamed
        (isReadOff elem hnamed)
      intro other _ hform
      cases other with
      | ellipsis elem' => exact ⟨elem', rfl⟩
      | _ => cases hform
  | .channel elem dir, hnamed => by
      refine isReadOff_front (channel · dir) dir.mark (fun _ => rfl) (fun _ => rfl) ?_ hnamed
        (isReadOff elem hnamed)
      intro other _ hform
      cases other with
      | channel elem' dir' =>
          cases hform
          exact ⟨elem', rfl⟩
      | _ => cases hform
  | .map key value, hnamed => by
      have hparts := hnamed
      rw [isNamed, Bool.and_eq_true] at hparts
      exact isReadOff_map hnamed (isReadOff key hparts.1) (isReadOff value hparts.2)
  | .struct fields, hnamed => by
      refine isReadOff_braced struct (fun _ => rfl) (fun _ => rfl) ?_ hnamed
        (isReadOff_of_mem fields hnamed)
      intro other _ hform
      cases other with
      | struct fields' => exact ⟨fields', rfl⟩
      | _ => cases hform
  | .interface methods, hnamed => by
      refine isReadOff_braced interface (fun _ => rfl) (fun _ => rfl) ?_ hnamed
        (isReadOff_of_mem methods hnamed)
      intro other _ hform
      cases other with
      | interface methods' => exact ⟨methods', rfl⟩
      | _ => cases hform
  | .func args results, hnamed => by
      have hparts := hnamed
      rw [isNamed, Bool.and_eq_true] at hparts
      exact isReadOff_func hnamed (isReadOff_of_mem args hparts.1)
        (isReadOff_of_mem results hparts.2)

theorem isReadOff_of_mem : ∀ types : List GoType, areNamed types = true →
    ∀ type ∈ types, type.IsReadOff
  | [], _ => by simp
  | type :: types, hnamed => by
      rw [areNamed_cons] at hnamed
      exact List.forall_mem_cons.mpr ⟨isReadOff type hnamed.1, isReadOff_of_mem types hnamed.2⟩

end

/-- Types with proper names are told apart by their texts. -/
theorem render_inj (htype : type.isNamed = true) (hother : other.isNamed = true) :
    type.render = other.render ↔ type = other := by
  constructor
  · intro htext
    have hchars : type.chars ++ [] = other.chars ++ [] := by
      rw [List.append_nil, List.append_nil]
      exact String.ofList_injective htext
    exact (isReadOff type htype hother .nil .nil hchars).1
  · exact congrArg render

/-- A function without results before another member, `struct{ func(...T); <-chan p.T }`. -/
def apart : GoType :=
  .struct [.func [.ellipsis (.primitive "T")] [], .channel (.selector "p" "T") .recv]

/-- The same with the other member as its result, `struct{ func(...T) <-chan p.T }`. -/
def together : GoType :=
  .struct [.func [.ellipsis (.primitive "T")] [.channel (.selector "p" "T") .recv]]

theorem render_inj_results :
    apart.isNamed = true ∧ together.isNamed = true ∧
      (apart.render = together.render ↔ apart = together) := by
  have hapart : apart.isNamed = true := by decide
  have htogether : together.isNamed = true := by decide
  exact ⟨hapart, htogether, render_inj hapart htogether⟩

end GoAtlas.GoType
