import GoAtlas.Source.Stack

/-!
# Reading a text

A text is read token by token.  Where a token can mean several things, the reading
splits into several heads that go on side by side; heads that come to the same place
with the same prospects are joined again.  A head that cannot go on pauses, and is
dropped if another one can.

If no head can go on, the text is not correct.  An error in the body of a struct is
confined to it: the body is passed over and counts as broken.  After any other error
the reading goes on with the next line.

The functions take a bound `steps` on the number of their rounds.  Every round moves
on in the text or shortens the stack, so a multiple of the length of the text is
enough.
-/

namespace GoAtlas.Source

/-- Whether a head goes on. -/
inductive Status where
  | active
  | paused
  | halted
deriving DecidableEq, Repr

/-- The end of a reading. -/
structure Head where
  /-- The number of the node on top. -/
  node : Nat
  status : Status := .active
deriving Repr

instance : Inhabited Head := ⟨⟨0, .halted⟩⟩

/-- The readings of a text so far. -/
structure Parse where
  nodes : Nodes
  heads : List Head
  /-- The best reading of the whole text. -/
  result : Option Tree := none

namespace Parse

/-- Before the text. -/
def start (text : List Char) : Parse :=
  { nodes := ⟨#[{ state := .start, offset := 0, rest := text, preference := 0, links := [] }]⟩
    heads := [{ node := 0 }] }

/-- A head by its place. -/
def head (parse : Parse) (place : Nat) : Head := parse.heads.getD place default

/-- The node on top of a head. -/
def top (parse : Parse) (place : Nat) : Node := parse.nodes.get (parse.head place).node

/-- Sets the status of a head. -/
def setStatus (parse : Parse) (place : Nat) (status : Status) : Parse :=
  { parse with heads := parse.heads.modify place fun head => { head with status } }

/-- Puts a tree on top of a head. -/
def push (parse : Parse) (place : Nat) (tree : Tree) (state : State) : Parse :=
  let below := (parse.head place).node
  let { nodes, heads, result } := parse
  let (nodes, node) := nodes.grow below tree state
  { nodes, heads := heads.modify place fun head => { head with node }, result }

/-! ## Ending a production -/

/-- How many heads there can be, heads that have halted aside, before no more are
added. -/
def maxHeads : Nat := 10

/-- Cuts the comments off the end of some trees. -/
def splitExtras (trees : List Tree) : List Tree × List Tree :=
  let extras := (trees.reverse.takeWhile (·.label.extra)).reverse
  (trees.take (trees.length - extras.length), extras)

/-- The best phrase that a production makes of one of some sequences of trees, with the
comments after it. -/
def bestWay (production : Production) (ways : List (List Tree)) : Option (Tree × List Tree) :=
  let phrases := ways.map fun trees =>
    let (parts, extras) := splitExtras trees
    (Tree.ofProduction production parts, extras)
  match phrases with
  | [] => none
  | first :: rest =>
      some (rest.foldl (fun best way => if way.1.beats best.1 then way else best) first)

/-- Puts trees on top of a node, all in the same state. -/
def stack (nodes : Nodes) (node : Nat) (state : State) (trees : List Tree) : Nodes × Nat :=
  trees.foldl (fun grown tree => grown.1.grow grown.2 tree state) (nodes, node)

/-- Whether a head can be joined with a new one on the node `node`. -/
def accepts (nodes : Nodes) (node : Nat) (head : Head) : Bool :=
  head.status == .active && nodes.joinable head.node node

/-- Adds a head on the node `node`.  If another head than the one at `place` can take it
in, it does. -/
def addHead (parse : Parse) (place node : Nat) : Parse :=
  let partner := (List.range parse.heads.length).find? fun other =>
    other != place && accepts parse.nodes node (parse.head other)
  match partner.map fun other => (parse.head other).node, parse with
  | some other, { nodes, heads, result } => { nodes := nodes.joinNode other node, heads, result }
  | none, { nodes, heads, result } => { nodes, heads := heads ++ [{ node }], result }

/-- Ends a production for the ways down to one node. -/
def finishAt (production : Production) (place limit : Nat) (parse : Parse)
    (landing : Nodes.Landing) : Parse :=
  if limit < parse.heads.length then parse
  else
    match bestWay production landing.ways with
    | none => parse
    | some (tree, extras) =>
        let { nodes, heads, result } := parse
        let state := (nodes.get landing.node).state.next (.rule production.rule)
        let (nodes, node) := stack nodes landing.node state (tree :: extras)
        addHead { nodes, heads, result } place node

/-- Ends a production at a head.  The new readings are new heads. -/
def finish (parse : Parse) (place : Nat) (production : Production) : Parse :=
  let landings := parse.nodes.waysDown (parse.head place).node production.steps.length
  let limit := maxHeads + parse.heads.countP fun head => head.status == .halted
  landings.foldl (finishAt production place limit) parse

/-- Ends some productions at a head.  Gives the place of the first head that the last
of them has added, if any. -/
def finishAll (parse : Parse) (place : Nat) (actions : List Action) : Parse × Option Nat :=
  actions.foldl
    (fun (parse, added) action =>
      match action with
      | .shift => (parse, added)
      | .reduce production =>
          let count := parse.heads.length
          let parse := parse.finish place production
          (parse, if count < parse.heads.length then some count else added))
    (parse, none)

/-- Moves the head at `source` to `place`, where it replaces the one there. -/
def moveHead (parse : Parse) (source place : Nat) : Parse :=
  { parse with heads := (parse.heads.set place (parse.head source)).eraseIdx source }

/-- Takes the trees of a head for readings of the whole text: the last phrase with its
parts, and the comments around it. -/
def conclude (parse : Parse) (place : Nat) : Parse :=
  let ways := parse.nodes.toBottom (parse.nodes.size + 1) (parse.head place).node []
  let roots := ways.filterMap fun trees =>
    let (phrases, extras) := splitExtras trees
    match phrases.getLast? with
    | some (.node label rule parts _) =>
        let parts := phrases.dropLast ++ parts ++ extras
        some (Tree.node label rule parts (Tree.extentOf parts))
    | _ => none
  let result := roots.foldl
    (fun best root =>
      match best with
      | some known => if root.beats known then some root else best
      | none => some root)
    parse.result
  { parse with result }.setStatus place .halted

/-! ## Moving on -/

/-- Whether an action ends the text. -/
def endsText : Action → Bool
  | .reduce production => production.rule == .text
  | .shift => false

/-- Does with a token at a head what the state asks for: ends productions until the
token can be taken.  A word that cannot come next is taken for a name. -/
def take : (steps : Nat) → Parse → (place : Nat) → Lexeme → Parse
  | 0, parse, place, _ => parse.setStatus place .halted
  | steps + 1, parse, place, lexeme =>
      let state := (parse.top place).state
      if lexeme.token = .comment then
        parse.push place (.leaf { extra := true } lexeme) state
      else
        let actions := state.actions lexeme.token
        if actions.isEmpty then
          if lexeme.token.isWord && !(state.actions .identifier).isEmpty then
            take steps parse place { lexeme with token := .identifier }
          else parse.setStatus place .paused
        else if actions.any endsText then parse.conclude place
        else
          let (parse, added) := parse.finishAll place actions
          if actions.any fun action => action.sameAs .shift then
            parse.push place (.leaf {} lexeme) (state.next (.token lexeme.token))
          else
            match added with
            | some added => take steps (parse.moveHead added place) place lexeme
            | none => parse.setStatus place .halted

/-- Takes the next token at a head. -/
def advance (steps : Nat) (parse : Parse) (place : Nat) : Parse :=
  let top := parse.top place
  parse.take steps place (Lexeme.next top.state.expected top.rest)

/-- Takes tokens at a head until it is further than `last`, or, for a head that is not
the first one, as far.  Gives how far the heads have come. -/
def advanceHead : (steps : Nat) → Parse → (place last : Nat) → Parse × Nat
  | 0, parse, _, last => (parse, last)
  | steps + 1, parse, place, last =>
      if (parse.head place).status = .active then
        let parse := parse.advance (steps + 1) place
        let offset := (parse.top place).offset
        if last < offset || (0 < place && offset == last) then (parse, offset)
        else advanceHead steps parse place last
      else (parse, last)

/-- Lets all heads from `place` on take tokens. -/
def advanceHeads : (steps : Nat) → Parse → (place last : Nat) → Parse × Nat
  | 0, parse, _, last => (parse, last)
  | steps + 1, parse, place, last =>
      if place < parse.heads.length then
        let (parse, last) := parse.advanceHead (steps + 1) place last
        advanceHeads steps parse (place + 1) last
      else (parse, last)

/-! ## Keeping the best heads -/

/-- How many heads are kept. -/
def maxKept : Nat := 6

/-- Adds a head to heads that have been compared with each other.  An active head beats
a paused one; heads that can be joined are; otherwise the head with the greater
preference comes first. -/
def insert (nodes : Nodes) (head : Head) : List Head → Nodes × List Head
  | [] => (nodes, [head])
  | known :: rest =>
      if known.status == .active && head.status == .paused then (nodes, known :: rest)
      else if known.status == .paused && head.status == .active then insert nodes head rest
      else if head.status == .active && nodes.joinable known.node head.node then
        (nodes.joinNode known.node head.node, known :: rest)
      else
        let before := (nodes.get known.node).preference < (nodes.get head.node).preference
        let (first, second) := if before then (head, known) else (known, head)
        let (nodes, heads) := insert nodes second rest
        (nodes, first :: heads)

/-- Drops the heads that have halted or are beaten. -/
def condense (parse : Parse) : Parse :=
  let { nodes, heads, result } := parse
  let running := heads.filter fun head => head.status != .halted
  let (nodes, kept) := running.foldl (fun (nodes, kept) head => insert nodes head kept) (nodes, [])
  { nodes, heads := kept.take maxKept, result }

/-! ## Errors -/

/-- All tokens but line breaks. -/
def anyToken : TokenSet := .ofList (Token.all.filter (· != .lineEnd))

/-- How a token changes the number of open brackets. -/
def nesting (depth : Nat) (token : Token) : Nat :=
  match token with
  | .openParen | .openBracket | .openBrace => depth + 1
  | .closeParen | .closeBracket | .closeBrace => depth - 1
  | _ => depth

/-- The text after the brace that closes the one before a text, where `depth` braces are
open.  Gives also the number of characters up to there. -/
def afterBody : (steps depth count : Nat) → List Char → Option (Nat × List Char)
  | 0, _, _, _ => none
  | steps + 1, depth, count, text =>
      let lexeme := Lexeme.next anyToken text
      let count := count + lexeme.lead + lexeme.text.length
      match lexeme.token with
      | .endOfText => none
      | .openBrace => afterBody steps (depth + 1) count lexeme.after
      | .closeBrace =>
          match depth with
          | 0 => some (count, lexeme.after)
          | depth + 1 => afterBody steps depth count lexeme.after
      | _ => afterBody steps depth count lexeme.after

/-- The text after the next line break outside of brackets, and the number of characters
up to there. -/
def afterLine : (steps depth count : Nat) → List Char → Nat × List Char
  | 0, _, count, text => (count, text)
  | steps + 1, depth, count, text =>
      let expected := if depth = 0 then anyToken.union (.single .lineEnd) else anyToken
      let lexeme := Lexeme.next expected text
      let count := count + lexeme.lead + lexeme.text.length
      match lexeme.token with
      | .endOfText | .lineEnd => (count, lexeme.after)
      | token => afterLine steps (nesting depth token) count lexeme.after

/-- The way from a node to the bottom along first links. -/
def firstWay (nodes : Nodes) : (depth : Nat) → (id : Nat) → List Nat
  | 0, _ => []
  | depth + 1, id =>
      match (nodes.get id).links with
      | [] => [id]
      | link :: _ => id :: firstWay nodes depth link.below

/-- Whether a state is reached by the brace that opens the body of a struct. -/
def opensBody (state : State) : Bool :=
  state.any fun item => item.production.rule == .fieldList && item.place == 1

/-- Whether a declaration of the file can start in a state. -/
def startsDecl (state : State) : Bool :=
  !(state.next (.token .packageWord)).isEmpty

/-- Passes over the body of a struct whose opening brace leads to a node. -/
def passBody (nodes : Nodes) (id : Nat) : Option Parse :=
  let node := nodes.get id
  match node.links with
  | [] => none
  | link :: _ =>
      (afterBody (node.rest.length + 1) 0 0 node.rest).map fun (count, after) =>
        let brace := link.tree.extent
        let body := Tree.node {} .fieldList [link.tree]
          { lead := brace.lead, width := brace.width + count, after, preference := 0,
            broken := true }
        let state := (nodes.get link.below).state.next (.rule .fieldList)
        let grown := nodes.grow link.below body state
        { nodes := grown.1, heads := [{ node := grown.2 }] }

/-- Passes over the line that starts at a node. -/
def passLine (nodes : Nodes) (id : Nat) : Option Parse :=
  let node := nodes.get id
  if node.rest.isEmpty then none
  else
    let (count, rest) := afterLine (node.rest.length + 1) 0 0 node.rest
    let moved := { node with offset := node.offset + count, rest }
    some { nodes := ⟨nodes.nodes.push moved⟩, heads := [{ node := nodes.size }] }

/-- Goes on after an error: after the innermost body of a struct around it if there is
one, and otherwise on the next line. -/
def recover (parse : Parse) : Option Parse :=
  let nodes := parse.nodes
  let way := firstWay nodes (nodes.size + 1) (parse.head 0).node
  let body := way.find? fun id => opensBody (nodes.get id).state
  match body.bind (passBody nodes) with
  | some parse => some parse
  | none =>
      (way.find? fun id => startsDecl (nodes.get id).state).bind (passLine nodes)

/-! ## Whole texts -/

/-- Reads on until no head is left. -/
def run : (steps : Nat) → Parse → (last : Nat) → Parse
  | 0, parse, _ => parse
  | steps + 1, parse, last =>
      let (parse, last) := parse.advanceHeads (steps + 1) 0 last
      let parse := parse.condense
      match parse.heads with
      | [] => parse
      | heads =>
          if heads.all fun head => head.status == .paused then
            match parse.recover with
            | some next => run steps next last
            | none => parse
          else run steps parse last

end Parse

/-- The reading of a text.  A mark of the byte order at its start does not count. -/
def Tree.ofText? (text : List Char) : Option Tree :=
  let text :=
    match text with
    | '\uFEFF' :: rest => rest
    | text => text
  (Parse.run (16 * (text.length + 16)) (.start text) 0).result

end GoAtlas.Source
