import GoAtlas.Source.Grammar

/-!
# How phrases start and what follows them

Two questions about the grammar come up at every token: with which tokens a phrase can
start, and, where a phrase of one rule starts with a phrase of another, which tokens
can follow the inner one.  Both are answered here once for all rules.

The inner phrase can be followed by what the grammar puts after it, and, if it can be
the whole of the outer phrase, also by whatever follows that.  A `Follow` keeps these
two apart, so that it does not depend on the place of the outer phrase.
-/

namespace GoAtlas.Source

/-! ## Sets of rules -/

/-- A set of rules: bit `n` tells whether the rule with the number `n` belongs to it. -/
structure RuleSet where
  bits : Nat
deriving DecidableEq, Repr

namespace RuleSet

/-- The set without rules. -/
def empty : RuleSet := ⟨0⟩

/-- A set with one more rule. -/
def insert (set : RuleSet) (rule : Rule) : RuleSet := ⟨set.bits ||| 1 <<< rule.index⟩

/-- Whether a rule belongs to a set. -/
def contains (set : RuleSet) (rule : Rule) : Bool := set.bits.testBit rule.index

end RuleSet

namespace Grammar

/-- The rules in the order of their numbers. -/
def rules : List Rule := (List.range Rule.count).map .ofNat

/-- The productions with their numbers. -/
def numbered : List (Nat × Production) := (List.range productions.length).zip productions

/-- For each rule by its number, its productions. -/
def ruleTable : Array (List Production) :=
  (rules.map fun rule => productions.filter fun production => production.rule == rule).toArray

/-- The productions of a rule. -/
def productionsOf (rule : Rule) : List Production := ruleTable.getD rule.index []

/-- The rules among some symbols. -/
def rulesAmong (symbols : List Symbol) : List Rule :=
  symbols.filterMap fun
    | .token _ => none
    | .rule rule => some rule

/-! ## Reaching rules -/

/-- The rules that can be reached from those in `pending` by going from a rule to its
successors, each once.  Each step takes a rule from `pending`, and a rule puts its
successors there only once, which bounds the number of steps. -/
def reach (successors : Rule → List Rule) :
    (steps : Nat) → (pending : List Rule) → (seen : RuleSet) → List Rule
  | 0, _, _ => []
  | _, [], _ => []
  | steps + 1, rule :: pending, seen =>
      if seen.contains rule then reach successors steps pending seen
      else rule :: reach successors steps (successors rule ++ pending) (seen.insert rule)

/-- The symbols that can come first in a phrase of a rule. -/
def firstSymbols (rule : Rule) : List Symbol :=
  (productionsOf rule).flatMap fun production =>
    match production.steps with
    | [] => []
    | step :: _ => step.symbols

/-- The symbols that can be a whole phrase of a rule. -/
def wholeSymbols (rule : Rule) : List Symbol :=
  (productionsOf rule).flatMap fun production =>
    match production.steps with
    | [step] => step.symbols
    | _ => []

/-- An upper bound for the number of symbols that come first in productions. -/
def reachSteps : Nat :=
  productions.foldl (fun count production =>
    count + (production.steps.headD { symbols := [] }).symbols.length) 1

/-- The rules of the phrases that can start a phrase of a rule, at any depth. -/
def cornersOf (rule : Rule) : List Rule :=
  reach (fun rule => rulesAmong (firstSymbols rule)) reachSteps [rule] .empty

/-- The rules of the phrases that can be a whole phrase of a rule, at any depth. -/
def wholesOf (rule : Rule) : List Rule :=
  reach (fun rule => rulesAmong (wholeSymbols rule)) reachSteps [rule] .empty

/-! ## Tokens that start a phrase -/

/-- The tokens with which a phrase of a rule can start. -/
def startsOf (rule : Rule) : TokenSet :=
  .ofList ((cornersOf rule).flatMap fun corner =>
    (firstSymbols corner).filterMap fun
      | .token token => some token
      | .rule _ => none)

/-- The tokens that start a phrase, for each rule by its number. -/
def startTable : Array TokenSet := (rules.map startsOf).toArray

end Grammar

/-- The tokens with which a symbol can start. -/
def Symbol.starts : Symbol → TokenSet
  | .token t => .single t
  | .rule r => Grammar.startTable.getD r.index .empty

/-- The tokens with which what fills a step can start. -/
def Step.starts (step : Step) : TokenSet :=
  step.symbols.foldl (fun set symbol => set.union symbol.starts) .empty

/-! ## Tokens that follow a phrase inside another one -/

/-- What can follow a phrase at the start of another phrase. -/
structure Follow where
  /-- The tokens that can follow it inside the other phrase. -/
  tokens : TokenSet := .empty
  /-- Whether it can also be the whole of the other phrase. -/
  whole : Bool := false
deriving DecidableEq, Repr

/-- The tokens that can follow, where `ahead` can follow the outer phrase. -/
def Follow.resolve (follow : Follow) (ahead : TokenSet) : TokenSet :=
  if follow.whole then follow.tokens.union ahead else follow.tokens

namespace Grammar

/-- The rules of the phrases that come first in a production, with the tokens that can
come after them in it. -/
def pairsIn (production : Production) : List (Rule × TokenSet) :=
  match production.steps with
  | first :: second :: _ => (rulesAmong first.symbols).map (·, second.starts)
  | _ => []

/-- The rules of the phrases that come first in the phrases that start a phrase of a rule,
with the tokens that can come after them. -/
def pairsOf (rule : Rule) : List (Rule × TokenSet) :=
  (cornersOf rule).flatMap fun corner => (productionsOf corner).flatMap pairsIn

/-- What can follow a phrase of the rule `inner` that starts a phrase of a rule, where
`pairs` are those of that rule and `wholes` the rules of its whole phrases. -/
def followOf (pairs : List (RuleSet × TokenSet)) (wholes : RuleSet) (inner : Rule) : Follow :=
  { tokens := pairs.foldl
      (fun set pair => if pair.1.contains inner then set.union pair.2 else set) .empty
    whole := wholes.contains inner }

/-- For each rule by its number, the rules of its whole phrases as a set. -/
def wholeTable : Array RuleSet :=
  (rules.map fun rule => (wholesOf rule).foldl .insert .empty).toArray

/-- The rules of the whole phrases of a rule as a set. -/
def wholeSet (rule : Rule) : RuleSet := wholeTable.getD rule.index .empty

/-- What can follow the phrases that start a phrase of a rule, for each rule by its
number. -/
def followsOf (outer : Rule) : Array Follow :=
  let pairs := (pairsOf outer).map fun (rule, tokens) => (wholeSet rule, tokens)
  (rules.map (followOf pairs (wholeSet outer))).toArray

/-- What can follow the phrases that start a phrase, for each rule. -/
def followTable : Array (Array Follow) := (rules.map followsOf).toArray

/-- What can follow a phrase of the rule `inner` that starts a phrase of the rule
`outer`. -/
def follow (outer inner : Rule) : Follow :=
  (followTable.getD outer.index #[]).getD inner.index {}

/-! ## Productions by their first symbol -/

/-- The productions that can start with a symbol, with their numbers. -/
def productionsWith (symbol : Symbol) : List (Nat × Production) :=
  numbered.filter fun entry => (entry.2.steps.headD { symbols := [] }).symbols.contains symbol

/-- The symbols in the order of their numbers. -/
def symbols : List Symbol := Token.all.map .token ++ rules.map .rule

/-- For each symbol by its number, the productions that can start with it. -/
def productionTable : Array (List (Nat × Production)) :=
  (symbols.map productionsWith).toArray

/-- The productions that can start with a symbol, in the order of the grammar. -/
def startingWith (symbol : Symbol) : List (Nat × Production) :=
  productionTable.getD symbol.index []

end Grammar

end GoAtlas.Source
