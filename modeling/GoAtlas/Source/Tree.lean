import GoAtlas.Source.Lexeme
import GoAtlas.Source.Rule

/-!
# Trees

The reading of a piece of text is a tree.  Its leaves are tokens; a node is a phrase
with its parts.  Comments are parts of the phrase that they stand in, but fill no step
of its production.

Two readings of the same text are compared by `Tree.beats`.
-/

namespace GoAtlas.Source

/-- What a part is to the phrase around it. -/
structure Label where
  role : Option Role := none
  /-- Whether an identifier here names no value. -/
  names : Bool := false
  /-- Whether it fills no step. -/
  extra : Bool := false
deriving Repr

/-- The place of a phrase in the text, and what is known of it as a whole. -/
structure Extent where
  /-- How many characters before it do not count. -/
  lead : Nat
  /-- How many characters it has. -/
  width : Nat
  /-- The text after it. -/
  after : List Char
  /-- How far its productions speak for it. -/
  preference : Int
  /-- Whether a part of it could not be read. -/
  broken : Bool
deriving Repr

instance : Inhabited Extent := ⟨⟨0, 0, [], 0, false⟩⟩

/-- A reading of a piece of text. -/
inductive Tree where
  | leaf (label : Label) (lexeme : Lexeme)
  | node (label : Label) (rule : Rule) (parts : List Tree) (extent : Extent)

namespace Tree

/-- What the tree is to the phrase around it. -/
def label : Tree → Label
  | leaf label _ => label
  | node label _ _ _ => label

/-- The tree with another label. -/
def withLabel (label : Label) : Tree → Tree
  | leaf _ lexeme => leaf label lexeme
  | node _ rule parts extent => node label rule parts extent

/-- The token or the rule. -/
def symbol : Tree → Symbol
  | leaf _ lexeme => .token lexeme.token
  | node _ rule _ _ => .rule rule

/-- The parts of a phrase. -/
def parts : Tree → List Tree
  | leaf _ _ => []
  | node _ _ parts _ => parts

/-- The place in the text. -/
def extent : Tree → Extent
  | leaf _ lexeme =>
      { lead := lexeme.lead, width := lexeme.text.length, after := lexeme.after
        preference := 0, broken := false }
  | node _ _ _ extent => extent

/-- How many characters the tree stands for, blanks before it included. -/
def length (tree : Tree) : Nat := tree.extent.lead + tree.extent.width

/-- The extent of some parts one after the other. -/
def extentOf : List Tree → Extent
  | [] => default
  | [tree] => tree.extent
  | tree :: rest =>
      let first := tree.extent
      let others := extentOf rest
      { lead := first.lead
        width := first.width + others.lead + others.width
        after := others.after
        preference := first.preference + others.preference
        broken := first.broken || others.broken }

/-- Gives the parts that fill the steps of a production the labels of their steps. -/
def fill : List Step → List Tree → List Tree
  | _, [] => []
  | [], trees => trees
  | step :: steps, tree :: trees =>
      if tree.label.extra then tree :: fill (step :: steps) trees
      else tree.withLabel { role := step.role, names := step.names } :: fill steps trees

/-- The phrase that a production makes of some parts. -/
def ofProduction (production : Production) (trees : List Tree) : Tree :=
  let extent := extentOf trees
  node {} production.rule (fill production.steps trees)
    { extent with preference := extent.preference + production.preference }

/-! ## Comparing readings -/

/-- Whether two trees stand for the same text in the same way, their parts aside. -/
def alike (a b : Tree) : Bool :=
  a.symbol == b.symbol && a.extent.lead == b.extent.lead && a.extent.width == b.extent.width &&
    a.parts.length == b.parts.length && a.label.extra == b.label.extra

mutual

/-- Compares two readings by their symbols and the numbers of their parts, first at the
top and then part by part. -/
def order : Tree → Tree → Ordering
  | leaf _ a, leaf _ b => compare a.token.index b.token.index
  | leaf _ _, node _ _ _ _ => .lt
  | node _ _ _ _, leaf _ _ => .gt
  | node _ rule parts _, node _ rule' parts' _ =>
      (compare rule.index rule'.index).then
        ((compare parts.length parts'.length).then (orderParts parts parts'))

/-- Compares two lists of parts. -/
def orderParts : List Tree → List Tree → Ordering
  | [], [] => .eq
  | [], _ :: _ => .lt
  | _ :: _, [] => .gt
  | a :: as, b :: bs => (order a b).then (orderParts as bs)

end

/-- Whether a reading is better than another one of the same text: it has the greater
preference, or the same and comes first in the order. -/
def beats (a b : Tree) : Bool :=
  b.extent.preference < a.extent.preference ||
    (a.extent.preference == b.extent.preference && b.order a == .gt)

end Tree

end GoAtlas.Source
