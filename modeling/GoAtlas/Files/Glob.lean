/-!
# Patterns for paths

A pattern describes paths relative to a directory.  `?` stands for one byte and `*` for
any number of them, but not for a slash; `[..]` stands for one of several bytes; `**`
between slashes stands for any number of directories; `{a,b}` stands for `a` or `b`; a
backslash takes the next character as it is.

A pattern is read into tokens.
-/

namespace GoAtlas

namespace Glob

/-- A part of a pattern. -/
inductive Token where
  | byte (b : UInt8)
  /-- One byte that is no slash. -/
  | any
  /-- Any number of bytes that are no slashes. -/
  | many
  /-- Directories in front of a path, each with its slash. -/
  | leading
  /-- A slash, with directories behind it, each with its slash. -/
  | between
  /-- A slash and everything behind it. -/
  | trailing
  /-- A byte in one of the ranges, or in none of them. -/
  | oneOf (negated : Bool) (ranges : List (UInt8 × UInt8))
  /-- One of several patterns. -/
  | choice (branches : List (List Token))

/-! ## Reading -/

/-- The bytes of a character. -/
def bytesOf (c : Char) : List UInt8 :=
  String.utf8EncodeChar c

/-- The tokens for a character that stands for itself. -/
def literal (c : Char) : List Token :=
  (bytesOf c).map .byte

/-- What the text behind an opening bracket is. -/
inductive ClassRead where
  /-- Ranges of characters up to a closing bracket, and the text behind it. -/
  | closed (ranges : List (Char × Char)) (rest : List Char)
  | unclosed
  /-- A range ends before it starts. -/
  | badRange

/-- Reads the ranges of a bracket.  `ranges` are those read so far from the last to the
first, `first` tells that nothing has been read, and `hyphen` that a hyphen stands behind
the last range. -/
def readRanges (first hyphen : Bool) (ranges : List (Char × Char)) : List Char → ClassRead
  | [] => .unclosed
  | c :: rest =>
      if c = ']' ∧ !first then
        .closed (if hyphen then (ranges.reverse ++ [('-', '-')]) else ranges.reverse) rest
      else if c = '-' ∧ !first ∧ !hyphen then readRanges false true ranges rest
      else
        match hyphen, ranges with
        | true, (low, _) :: more =>
            if c < low then .badRange else readRanges false false ((low, c) :: more) rest
        | _, _ => readRanges false false ((c, c) :: ranges) rest

/-- The bytes that a range of characters stands for.  Of characters with several bytes
the last byte of the lower and the first byte of the upper one limit the range. -/
def byteRanges (range : Char × Char) : List (UInt8 × UInt8) :=
  let single (b : UInt8) := (b, b)
  if range.1 = range.2 then (bytesOf range.1).map single
  else
    match (bytesOf range.1).getLast?, bytesOf range.2 with
    | some low, high :: more =>
        (bytesOf range.1).dropLast.map single ++ (low, high) :: more.map single
    | _, _ => []

/-- Reads a bracket: whether it is negated, and its ranges. -/
def readClass (text : List Char) : Bool × ClassRead :=
  match text with
  | '!' :: rest => (true, readRanges true false [] rest)
  | '^' :: rest => (true, readRanges true false [] rest)
  | rest => (false, readRanges true false [] rest)

/-- A pattern while it is read. -/
structure Draft where
  /-- The tokens of the innermost branch, the last one first. -/
  tokens : List Token := []
  /-- The braces that are open, the innermost first: the tokens in front of the brace,
  the last one first, and the branches that are complete, the last one first. -/
  outer : List (List Token × List (List Token)) := []
  /-- The character read last. -/
  last : Option Char := none
  /-- Whether brackets stand for themselves, because one is never closed. -/
  plainBrackets : Bool := false

namespace Draft

/-- Adds tokens, given in order. -/
def push (draft : Draft) (last : Char) (tokens : List Token) : Draft :=
  { draft with tokens := tokens.reverse ++ draft.tokens, last := some last }

/-- Opens a brace. -/
def openBrace (draft : Draft) : Draft :=
  { draft with tokens := [], outer := (draft.tokens, []) :: draft.outer, last := some '\x7b' }

/-- Completes a branch of a brace at a comma. -/
def nextBranch (draft : Draft) : Draft :=
  match draft.outer with
  | [] => draft.push ',' (literal ',')
  | (before, branches) :: outer =>
      { draft with
        tokens := [], outer := (before, draft.tokens.reverse :: branches) :: outer,
        last := some ',' }

/-- Closes a brace. -/
def closeBrace? (draft : Draft) : Option Draft :=
  match draft.outer with
  | [] => none
  | (before, branches) :: outer =>
      some { draft with
        tokens := .choice (draft.tokens.reverse :: branches).reverse :: before, outer,
        last := some '\x7d' }

/-- Puts directories in place of the slash in front of two stars. -/
def pushDirectories (draft : Draft) (last : Char) (token : Token) : Draft :=
  match draft.tokens with
  | .leading :: _ => { draft with last := some last }
  | .trailing :: _ => { draft with last := some last }
  | _ :: tokens => { draft with tokens := token :: tokens, last := some last }
  | [] => { draft with tokens := [token], last := some last }

/-- Reads two stars, which are followed by the given text: the draft and the text that
remains. -/
def pushStars (draft : Draft) (rest : List Char) : Draft × List Char :=
  let plain := (draft.push '*' [.many, .many], rest)
  let atSlash := draft.last == some '/' ||
    (!draft.outer.isEmpty && (draft.last == some ',' || draft.last == some '\x7b'))
  if draft.tokens.isEmpty then
    match rest with
    | [] => (draft.push '*' [.leading], [])
    | '/' :: rest => (draft.push '/' [.leading], rest)
    | _ => plain
  else if !atSlash then plain
  else
    match rest with
    | [] => (draft.pushDirectories '*' .trailing, [])
    | '/' :: rest => (draft.pushDirectories '/' .between, rest)
    | c :: more =>
        if !draft.outer.isEmpty && (c == ',' || c == '\x7d') then
          (draft.pushDirectories '*' .trailing, c :: more)
        else plain

end Draft

/-- Reads the tokens of a pattern, at most `count` steps of them. -/
def readTokens : (count : Nat) → Draft → List Char → Option (List Token)
  | _, draft, [] => if draft.outer.isEmpty then some draft.tokens.reverse else none
  | 0, _, _ => none
  | count + 1, draft, c :: rest =>
      if c = '?' then readTokens count (draft.push c [.any]) rest
      else if c = '*' then
        match rest with
        | '*' :: rest =>
            let (draft, rest) := draft.pushStars rest
            readTokens count draft rest
        | rest => readTokens count (draft.push c [.many]) rest
      else if c = '[' ∧ !draft.plainBrackets then
        match readClass rest with
        | (negated, .closed ranges rest) =>
            readTokens count (draft.push ']' [.oneOf negated (ranges.flatMap byteRanges)]) rest
        | (_, .unclosed) =>
            readTokens count { draft.push c (literal c) with plainBrackets := true } rest
        | (_, .badRange) => none
      else if c = '\x7b' then readTokens count draft.openBrace rest
      else if c = '\x7d' then
        match draft.closeBrace? with
        | some draft => readTokens count draft rest
        | none => none
      else if c = ',' then readTokens count draft.nextBranch rest
      else if c = '\\' then
        match rest with
        | [] => none
        | d :: rest => readTokens count (draft.push d (literal d)) rest
      else readTokens count (draft.push c (literal c)) rest

/-! ## Matching

Matching goes through the tokens from the last to the first.  At each token there is known
for every end of the text whether the tokens behind describe it, and from that the same is
found with the token in front.  So the work is the product of the two lengths.
-/

/-- The byte of a slash. -/
def slash : UInt8 := 0x2F

/-- Whether a byte is in one of the ranges. -/
def inRanges (ranges : List (UInt8 × UInt8)) (b : UInt8) : Bool :=
  ranges.any fun range => range.1 ≤ b && b ≤ range.2

/-- A truth value for every end of a text, the whole text first and the empty one last. -/
abbrev Ends := List Bool

namespace Ends

/-- Only the empty end is described. -/
def onlyEmpty (text : List UInt8) : Ends :=
  List.replicate text.length false ++ [true]

/-- No end is described. -/
def none (text : List UInt8) : Ends :=
  List.replicate (text.length + 1) false

/-- The ends described by either. -/
def or (a b : Ends) : Ends := List.zipWith (· || ·) a b

/-- The ends that are described behind a first byte that satisfies `p`. -/
def afterByte (p : UInt8 → Bool) : List UInt8 → Ends → Ends
  | b :: text, _ :: ends => (p b && ends.headD false) :: afterByte p text ends
  | _, _ => [false]

/-- The ends that are described behind any number of bytes that are no slashes. -/
def withinName : List UInt8 → Ends → Ends
  | b :: text, described :: ends =>
      let later := withinName text ends
      (described || (b != slash && later.headD false)) :: later
  | _, ends => ends

/-- The ends that are described behind one of their slashes. -/
def behindSlash : List UInt8 → Ends → Ends
  | b :: text, _ :: ends =>
      let later := behindSlash text ends
      ((b == slash && ends.headD false) || later.headD false) :: later
  | _, _ => [false]

/-- The ends of which some end is described. -/
def someEnd : Ends → Ends
  | [] => []
  | described :: ends =>
      let later := someEnd ends
      (described || later.headD false) :: later

end Ends

mutual

/-- Whether a token describes the empty text only.  Choices between empty branches do. -/
def Token.isVoid : Token → Bool
  | .choice branches => allVoid branches
  | _ => false

/-- Whether tokens in a row describe the empty text only. -/
def isVoid : List Token → Bool
  | [] => true
  | token :: rest => token.isVoid && isVoid rest

/-- Whether all branches describe the empty text only. -/
def allVoid : List (List Token) → Bool
  | [] => true
  | branch :: rest => isVoid branch && allVoid rest

end

mutual

/-- The ends that a token describes in front of what is described by `ends`.  Empty branches
of a choice count only when there are no others. -/
def Token.describe (text : List UInt8) (ends : Ends) : Token → Ends
  | .byte b => .afterByte (· == b) text ends
  | .any => .afterByte (· != slash) text ends
  | .many => .withinName text ends
  | .leading => .or ends (.behindSlash text ends)
  | .between => .afterByte (· == slash) text (.or ends (.behindSlash text ends))
  | .trailing => .afterByte (· == slash) text ends.someEnd
  | .oneOf negated ranges => .afterByte (fun b => inRanges ranges b != negated) text ends
  | .choice branches => if allVoid branches then ends else describeBranches text ends branches

/-- The ends that tokens in a row describe. -/
def describeAll (text : List UInt8) (ends : Ends) : List Token → Ends
  | [] => ends
  | token :: rest => token.describe text (describeAll text ends rest)

/-- The ends that one of several branches describes, empty ones aside. -/
def describeBranches (text : List UInt8) (ends : Ends) : List (List Token) → Ends
  | [] => .none text
  | branch :: rest =>
      let others := describeBranches text ends rest
      if isVoid branch then others else .or (describeAll text ends branch) others

end

end Glob

/-- A pattern for paths. -/
structure Glob where
  tokens : List Glob.Token

namespace Glob

/-- The pattern written by a text.  Two stars alone describe every path. -/
def read? (text : List Char) : Option Glob :=
  (readTokens text.length {} text).map fun tokens =>
    match tokens with
    | [.leading] => ⟨[.leading, .many]⟩
    | tokens => ⟨tokens⟩

/-- Whether a pattern describes a path. -/
def describes (glob : Glob) (path : String) : Bool :=
  let text := path.toUTF8.toList
  (describeAll text (.onlyEmpty text) glob.tokens).headD false

end Glob

end GoAtlas
