import GoAtlas.Source.Follow

/-!
# States of reading

While a text is read, several productions can be under way.  A state holds the place
reached in each of them and the tokens that can follow once it is complete.  From a
state it can be told which tokens can come next and what each of them means: that the
text goes on with the token, or that a production ends before it.

Where both are possible, the priorities decide if they can.  Otherwise both ways are
followed.
-/

namespace GoAtlas.Source

/-- A place in a production that is under way. -/
structure Item where
  /-- The number of the production. -/
  number : Nat
  production : Production
  /-- How many steps of the production have been read. -/
  place : Nat
  /-- The steps that have not been read. -/
  rest : List Step
  /-- The tokens that can follow the whole production. -/
  ahead : TokenSet

namespace Item

/-- Whether a symbol can fill the next step. -/
def takes (item : Item) (symbol : Symbol) : Bool :=
  match item.rest with
  | [] => false
  | step :: _ => step.symbols.contains symbol

/-- The item after its next step, if a symbol can fill it. -/
def advance? (symbol : Symbol) (item : Item) : Option Item :=
  if item.takes symbol then
    some { item with place := item.place + 1, rest := item.rest.tail }
  else none

/-- Whether the production is complete and can be followed by a token. -/
def endsBefore (token : Token) (item : Item) : Bool :=
  item.rest.isEmpty && item.ahead.contains token

/-- The tokens with which the production can go on or, if it is complete, be
followed. -/
def expected (item : Item) : TokenSet :=
  match item.rest with
  | [] => item.ahead
  | step :: _ => step.starts

/-- Whether the production can go on with a token. -/
def goesOnWith (token : Token) (item : Item) : Bool :=
  match item.rest with
  | [] => false
  | step :: _ => step.starts.contains token

/-- The rules of the phrases that can come next, with the tokens that can follow
them. -/
def openings (item : Item) : List (Rule × TokenSet) :=
  match item.rest with
  | [] => []
  | step :: more =>
      let ahead :=
        match more with
        | [] => item.ahead
        | next :: _ => next.starts
      step.symbols.filterMap fun
        | .token _ => none
        | .rule rule => some (rule, ahead)

/-- Whether two items are at the same place. -/
def samePlace (a b : Item) : Bool :=
  a.number == b.number && a.place == b.place

end Item

/-- What a token can mean in a state. -/
inductive Action where
  /-- The token continues a production. -/
  | shift
  /-- A production ends before the token. -/
  | reduce (production : Production)

namespace Action

/-- Whether two actions have the same effect. -/
def sameAs : Action → Action → Bool
  | .shift, .shift => true
  | .reduce a, .reduce b =>
      a.rule == b.rule && a.steps.length == b.steps.length && a.preference == b.preference
  | _, _ => false

end Action

/-- The productions under way, those that started last before the others, and of those
that started together in the order of the grammar. -/
abbrev State := List Item

namespace State

/-- The state before the text. -/
def start : State :=
  (Grammar.numbered.filter fun entry => entry.2.rule == .text).map fun (number, production) =>
    { number, production, place := 0, rest := production.steps, ahead := .single .endOfText }

/-- The tokens that can come next. -/
def expected (state : State) : TokenSet :=
  state.foldl (fun set item => set.union item.expected) .empty

/-! ## Going on -/

/-- Adds the tokens that can follow phrases of a rule. -/
def addOpening (opening : Rule × TokenSet) :
    List (Rule × TokenSet) → List (Rule × TokenSet)
  | [] => [opening]
  | known :: rest =>
      if known.1 = opening.1 then (known.1, known.2.union opening.2) :: rest
      else known :: addOpening opening rest

/-- The rules of the phrases that can come next, each once, with the tokens that can
follow them. -/
def openings (state : State) : List (Rule × TokenSet) :=
  (state.flatMap Item.openings).foldl (fun known opening => addOpening opening known) []

/-- The tokens that can follow a phrase of a rule that starts one of the phrases that
can come next. -/
def aheadOf (openings : List (Rule × TokenSet)) (rule : Rule) : TokenSet :=
  openings.foldl
    (fun set opening => set.union ((Grammar.follow opening.1 rule).resolve opening.2)) .empty

/-- The state after a symbol; without items if the symbol cannot come next. -/
def next (state : State) (symbol : Symbol) : State :=
  let openings := state.openings
  let started := (Grammar.startingWith symbol).filterMap fun (number, production) =>
    let ahead := aheadOf openings production.rule
    if ahead.isEmpty then none
    else some { number, production, place := 1, rest := production.steps.tail, ahead }
  started ++ state.filterMap (Item.advance? symbol)

/-! ## Choosing between going on and ending -/

/-- Which of two possibilities remain. -/
inductive Verdict where
  | goOn
  | finish
  | both
deriving DecidableEq, Repr

/-- Whether some items all belong to one repetition. -/
def sameRepetition : List Item → Bool
  | [] => false
  | item :: rest =>
      item.production.rule.isRepetition &&
        rest.all fun other => other.production.rule == item.production.rule

/-- Decides between productions that can end and productions that can go on with the
same token, where the former have the priority `priority`.  Items of one repetition are
joined at once.  Otherwise the higher priority wins, and if all priorities are the same,
the side of the productions that can end. -/
def decideBetween (priority : Int) (ending going : List Item) : Verdict :=
  let lower := going.any fun item => item.production.priority < priority
  let higher := going.any fun item => priority < item.production.priority
  if higher && lower then .both
  else if higher then .goOn
  else if lower then .finish
  else if ending.all fun item => item.production.side == some .left then .finish
  else if ending.all fun item => item.production.side == some .right then .goOn
  else .both

/-- The items whose priority is the highest. -/
def foremost (items : List Item) : List Item :=
  items.filter fun item =>
    items.all fun other => other.production.priority ≤ item.production.priority

/-- What a token can mean, productions that end before those that go on. -/
def actions (state : State) (token : Token) : List Action :=
  let ending := state.filter (·.endsBefore token)
  let going := state.filter (·.goesOnWith token)
  let best := foremost ending
  let finish := best.map fun item => Action.reduce item.production
  match best, going with
  | _, [] => finish
  | [], _ => [.shift]
  | item :: _, _ =>
      if sameRepetition (going ++ ending) then finish
      else
        match decideBetween item.production.priority best going with
        | .goOn => [.shift]
        | .finish => finish
        | .both => finish ++ [.shift]

/-! ## Joining states -/

/-- The tokens on which two states must agree in what can follow their productions,
or they are kept apart. -/
def decisive : TokenSet :=
  .ofList [.endOfText, .lineEnd, .arrow, .increment, .shiftLeftAssign]

/-- Whether two states are the same. -/
def same (a b : State) : Bool :=
  match a, b with
  | [], [] => true
  | x :: a, y :: b => x.samePlace y && x.ahead == y.ahead && same a b
  | _, _ => false

/-- Whether two states are at the same places, and agree on what follows as far as the
decisive tokens go. -/
def samePlaces (a b : State) : Bool :=
  match a, b with
  | [], [] => true
  | x :: a, y :: b =>
      x.samePlace y && x.ahead.inter decisive == y.ahead.inter decisive && samePlaces a b
  | _, _ => false

/-- Whether two states give a token the same meaning. -/
def agreesOn (a b : State) (token : Token) : Bool :=
  let x := a.actions token
  let y := b.actions token
  x.length == y.length && (x.zip y).all fun (p, q) => p.sameAs q

/-- Whether two states can be joined: they are at the same places and give the same
meaning to all tokens that can come next in both. -/
def joinable (a b : State) : Bool :=
  same a b ||
    (samePlaces a b &&
      let common := a.expected.inter b.expected
      Token.all.all fun token => !common.contains token || agreesOn a b token)

/-- Two states that can be joined, taken together. -/
def join (a b : State) : State :=
  (a.zip b).map fun (x, y) => { x with ahead := x.ahead.union y.ahead }

end State

end GoAtlas.Source
